import Treebank.Conllu.Writer
import Treebank.Proofs.Conllu.Canonical
import Treebank.Proofs.Except

/-!
# Columns

A row that fits is read back from its line, column by column, and its enhanced column says which heads it names with which
relations.
-/

namespace Treebank.Conllu

variable {known : List String} {id : RowId} {r : Row}

/-! ## Lines -/

/-- A row is read back from its line. -/
theorem ofLine_text (h : ∀ c ∈ r.columns, '\t' ∉ c.toList) (lineNumber : Nat) :
    Row.ofLine lineNumber r.text = .ok { r with lineNumber := lineNumber } := by
  have htext : r.text.toList = ['\t'].intercalate (r.columns.map String.toList) := String.toList_intercalate
  have hsplit : Text.splitOn '\t' r.text.toList = r.columns.map String.toList := by
    rw [htext]
    refine Text.splitOn_intercalate (by simp [Row.columns]) fun piece hp => ?_
    obtain ⟨c, hc, rfl⟩ := List.mem_map.1 hp
    exact h c hc
  have hcolumns : columnsOf r.text.toList = r.columns := by
    rw [columnsOf, hsplit]
    simp [Row.columns, Row.tail, columnCount]
  rw [Row.ofLine, hcolumns]
  rfl

/-- A column is written as it was read. -/
theorem column_content {c : String} (h : c ≠ "") : column (content c) = c := by
  unfold column content
  by_cases hc : c = blank
  · simp [hc]
  · simp [hc, h]

/-! ## Links -/

/-- An entry of an enhanced column. -/
def linkText (p : String × String) : String := p.1 ++ ":" ++ p.2

/-- The heads that the enhanced column of a row names, with their relations. -/
def Row.links (r : Row) : List (String × String) :=
  r.entries.filterMap fun entry =>
    (Text.splitFirst? ':' entry).map fun (head, relation) => (String.ofList head, String.ofList relation)

/-- Heads can be told from relations and entries from each other. -/
def Plain (known : List String) : Prop := ∀ head ∈ known, ':' ∉ head.toList ∧ '|' ∉ head.toList

/-- Ids in writing are such heads. -/
theorem plain_text (id : RowId) : ':' ∉ id.text.toList ∧ '|' ∉ id.text.toList := by
  constructor
  · intro hc
    rcases mem_text hc with h | h | h <;> exact absurd h (by decide)
  · intro hc
    rcases mem_text hc with h | h | h <;> exact absurd h (by decide)

/-- The heads of links can be told from relations and entries from each other. -/
theorem plain_of_linksFit {links : List (String × String)} (hknown : Plain known) (h : LinksFit known links)
    {p : String × String} (hp : p ∈ links) : ':' ∉ p.1.toList ∧ '|' ∉ p.1.toList ∧ '|' ∉ p.2.toList := by
  rcases h.heads p hp with hzero | hm
  · rw [hzero]
    exact ⟨by decide, by decide, (h.relations p hp).2⟩
  · exact ⟨(hknown p.1 hm).1, (hknown p.1 hm).2, (h.relations p hp).2⟩

/-- An entry, character by character. -/
theorem toList_linkText (p : String × String) : (linkText p).toList = p.1.toList ++ ':' :: p.2.toList := by
  simp [linkText]

/-- The entries of an enhanced column come out again. -/
theorem entries_eq {links : List (String × String)} (h : ∀ p ∈ links, '|' ∉ p.1.toList ∧ '|' ∉ p.2.toList)
    (hr : r.deps = linksText links) : r.entries = links.map fun p => (linkText p).toList := by
  unfold Row.entries
  cases links with
  | nil =>
    rw [hr]
    rfl
  | cons p links =>
    have htext : r.deps.toList = ['|'].intercalate ((p :: links).map fun p => (linkText p).toList) := by
      rw [hr, linksText, if_neg (by simp), String.toList_intercalate, List.map_map]
      rfl
    have hne : r.deps ≠ blank := by
      intro e
      have hcolon : ':' ∈ r.deps.toList := by
        rw [htext]
        cases links with
        | nil => simp [toList_linkText]
        | cons q links => simp [List.intercalate_cons_cons, toList_linkText]
      rw [e] at hcolon
      exact absurd hcolon (by decide)
    rw [if_neg hne, htext]
    refine Text.splitOn_intercalate (by simp) fun piece hm => ?_
    obtain ⟨q, hq, rfl⟩ := List.mem_map.1 hm
    rw [toList_linkText]
    simp [h q hq]

/-- The links of an enhanced column come out again. -/
theorem links_eq {links : List (String × String)} (hknown : Plain known) (h : LinksFit known links)
    (hr : r.deps = linksText links) : r.links = links := by
  rw [Row.links, entries_eq (fun p hp => (plain_of_linksFit hknown h hp).2) hr, List.filterMap_map]
  refine (List.filterMap_congr fun p hp => ?_).trans List.filterMap_some
  rw [Function.comp_apply, toList_linkText, Text.splitFirst?_append (plain_of_linksFit hknown h hp).1]
  simp

/-- What holds of the links of a row that fits. -/
structure Row.Linked (known : List String) (r : Row) : Prop where
  fits : LinksFit known r.links
  deps : r.deps = linksText r.links
  entries : r.entries = r.links.map fun p => (linkText p).toList
  plain : ∀ p ∈ r.links, ':' ∉ p.1.toList

theorem Row.Fits.linked (h : r.Fits known id) (ht : id.isToken) (hknown : Plain known) : r.Linked known := by
  obtain ⟨links, hfit, hdeps⟩ := h.deps ht
  have hlinks := links_eq hknown hfit hdeps
  have hentries := entries_eq (fun p hp => (plain_of_linksFit hknown hfit hp).2) hdeps
  rw [← hlinks] at hfit hdeps hentries
  exact ⟨hfit, hdeps, hentries, fun p hp => (plain_of_linksFit hknown hfit hp).1⟩

/-! ## Edges of a row -/

/-- The edge that the head of a row gives. -/
def Row.plainEdge (locate : String → Int) (r : Row) (index : Int) : List Edge :=
  if r.head = "0" || r.head = blank then []
  else [{ governor := locate r.head, dependent := index, relation := content r.relation }]

/-- The edges that the links of a row give. -/
def Row.linkEdges (locate : String → Int) (r : Row) (index : Int) : List Edge :=
  (r.links.filter (·.1 != "0")).map fun p =>
    { governor := locate p.1, dependent := index, relation := p.2, extra := true }

variable {ids : Indices} {locate : String → Int}

/-- Heads that are known are resolved. -/
theorem resolve_eq_ok (hids : ∀ head ∈ known, ids.lookup head = some (locate head)) (r : Row) {head : String}
    (hm : head ∈ known) : resolve ids r head = .ok (locate head) := by
  rw [resolve, hids head hm]

/-- A row that fits gives the plain edge that its head gives. -/
theorem plainEdges_eq_ok (h : r.Fits known id) (ht : id.isToken) (hids : ∀ head ∈ known, ids.lookup head = some (locate head))
    (index : Int) : r.plainEdges ids index = .ok (r.plainEdge locate index) := by
  unfold Row.plainEdges Row.plainEdge
  split
  · rfl
  · rename_i hhead
    simp only [Bool.or_eq_true, decide_eq_true_eq, not_or] at hhead
    rcases h.head ht with hz | hb | hm
    · exact absurd hz.1 hhead.1
    · exact absurd hb.1 hhead.2
    · rw [resolve_eq_ok hids r hm]
      rfl

/-- Links whose heads are zero or known give an edge each, but for those whose head is zero. -/
theorem extraEdges_eq_ok (hids : ∀ head ∈ known, ids.lookup head = some (locate head)) (r : Row) (index : Int)
    {links : List (String × String)} (hheads : ∀ p ∈ links, p.1 = "0" ∨ p.1 ∈ known) (hrelations : ∀ p ∈ links, p.2 ≠ "")
    (hcolons : ∀ p ∈ links, ':' ∉ p.1.toList) :
    r.extraEdges ids index (links.map fun p => (linkText p).toList) =
      .ok ((links.filter (·.1 != "0")).map fun p =>
        { governor := locate p.1, dependent := index, relation := p.2, extra := true }) := by
  induction links with
  | nil => rfl
  | cons p links ih =>
    obtain ⟨hhead, hheads⟩ := List.forall_mem_cons.1 hheads
    obtain ⟨hrelation, hrelations⟩ := List.forall_mem_cons.1 hrelations
    obtain ⟨hcolon, hcolons⟩ := List.forall_mem_cons.1 hcolons
    have ih := ih hheads hrelations hcolons
    obtain ⟨c, cs, hcs⟩ := List.exists_cons_of_ne_nil (fun e => hrelation (String.toList_inj.1 e) : p.2.toList ≠ [])
    have hof : String.ofList (c :: cs) = p.2 := by rw [← hcs, String.ofList_toList]
    rw [List.map_cons, Row.extraEdges, toList_linkText, Text.splitFirst?_append hcolon, hcs]
    by_cases hz : p.1 = "0"
    · simp only [hz, List.filter_cons]
      exact ih
    · have hzero : p.1.toList ≠ ['0'] := fun e => hz (String.toList_inj.1 e)
      simp only [hzero, if_false]
      rw [String.ofList_toList, resolve_eq_ok hids r (hhead.resolve_left hz), hof, List.filter_cons, if_pos (by simpa using hz)]
      exact bind_eq_ok_iff.2 ⟨_, rfl, bind_eq_ok_iff.2 ⟨_, ih, rfl⟩⟩

/-- A row that fits gives the edges that its head and its links give. -/
theorem edges_eq_ok (h : r.Fits known id) (ht : id.isToken) (hknown : Plain known)
    (hids : ∀ head ∈ known, ids.lookup head = some (locate head)) (index : Int) :
    r.edges ids index = .ok (r.plainEdge locate index ++ r.linkEdges locate index) := by
  have hlinked := h.linked ht hknown
  have hextra : r.extraEdges ids index r.entries = .ok (r.linkEdges locate index) := by
    rw [hlinked.entries]
    exact extraEdges_eq_ok hids r index hlinked.fits.heads (fun p hp => (hlinked.fits.relations p hp).1) hlinked.plain
  exact bind_eq_ok_iff.2 ⟨_, plainEdges_eq_ok h ht hids index, bind_eq_ok_iff.2 ⟨_, hextra, rfl⟩⟩

end Treebank.Conllu
