import Treebank.Frame.Tokens
import Treebank.Proofs.Decimal.Numeral
import Treebank.Proofs.Except
import Treebank.Proofs.Graph.Drawn
import Treebank.Proofs.Graph.Linear

/-!
# Token frames read back

Graphs of which a token frame says all (`Tabular`) are built from it again, with the same words, places, edges and roots, the same
parts of speech, features and remarks, and the extra edges into every token in their order (`Reframed`). What gets lost is what a frame
has no column for: weights, attributes, comments, surface words and slots.
-/

namespace Treebank

/-- A token without what a frame has no column for. -/
def Token.framed (t : Token) : Token where
  index := t.index
  word := t.word
  baseForm := t.baseForm
  tag := t.tag
  upos := t.upos
  feats := t.feats
  misc := t.misc
  position := t.position
  emptyIndex := t.emptyIndex

/-- A token without the relation that stood beside a head that is no token. -/
def Token.unrooted (t : Token) : Token := { t with rootRelation := none }

/-- An edge without its weight. -/
def Edge.framed (e : Edge) : Edge := { e with weight := .one }

/-- The weight is no part of the outline. -/
@[simp] theorem Edge.outline_framed (e : Edge) : e.framed.outline = e.outline := rfl

theorem Edge.map_outline_framed (es : List Edge) : (es.map Edge.framed).map Edge.outline = es.map Edge.outline := by
  rw [List.map_map]
  rfl

namespace Frame

open Conllu (rowEdges)

/-! ## Cells -/

/-- A row as its cells give it back: an empty cell of the relation is an empty text. -/
def TokenRow.mended (r : TokenRow) : TokenRow := { r with relation := some (r.relation.getD "") }

/-- The cells of a row say what the row says. -/
theorem ofCells?_cells (r : TokenRow) : TokenRow.ofCells? ((tokenColumns.map (·.1)).zip r.cells) = some r.mended := by
  have hhead : (Cell.ofInt? r.head).int? = r.head := by
    cases r.head <;> rfl
  have hrelation : ((Cell.ofText? r.relation).text?).getD "" = r.relation.getD "" := by
    cases r.relation <;> rfl
  unfold TokenRow.ofCells? TokenRow.mended
  rw [← hhead, ← hrelation]
  rfl

/-- The columns of a token frame are those that are asked for. -/
theorem checkSchema_tokenColumns : checkSchema tokenColumns = .ok () := by decide

/-- From a token frame come the graphs of its rows. -/
theorem graphs_ofGraphs_eq (gs : List Graph) :
    (ofGraphs gs).graphs = (graphsOfRows ((tokenRows 0 gs).map TokenRow.mended)).mapError .row := by
  have hrows : (ofGraphs gs).rows.mapM (fun row => TokenRow.ofCells? ((ofGraphs gs).named row)) =
      some ((tokenRows 0 gs).map TokenRow.mended) := by
    rw [ofGraphs, List.mapM_map]
    refine Eq.trans (congrArg (List.mapM · (tokenRows 0 gs)) (funext fun r => ofCells?_cells r)) ?_
    exact List.mapM_pure
  have hcolumns : checkSchema (ofGraphs gs).columns = .ok () := checkSchema_tokenColumns
  unfold graphs
  rw [hcolumns, hrows]
  rfl

/-! ## Sentences -/

/-- The row of a token as it comes back. -/
def rowAt (sentence : Int) (g : Graph) (t : Token) : TokenRow := (TokenRow.ofToken sentence g t).mended

/-- The row of a token has the number of its sentence. -/
@[simp] theorem sentence_rowAt (sentence : Int) (g : Graph) (t : Token) : (rowAt sentence g t).sentence = sentence := rfl

/-- The rows of graphs as they come back. -/
def rowsAt (sentence : Int) (gs : List Graph) : List TokenRow := (tokenRows sentence gs).map TokenRow.mended

/-- The rows of the first graph come before those of the others. -/
theorem rowsAt_cons (sentence : Int) (g : Graph) (gs : List Graph) :
    rowsAt sentence (g :: gs) = g.tokensInOrder.map (rowAt sentence g) ++ rowsAt (sentence + 1) gs := by
  rw [rowsAt, tokenRows, List.map_append, List.map_map]
  rfl

/-- Rows have the numbers of their sentences. -/
theorem le_sentence_of_mem {sentence : Int} {gs : List Graph} {r : TokenRow} (hr : r ∈ rowsAt sentence gs) :
    sentence ≤ r.sentence := by
  induction gs generalizing sentence with
  | nil => cases hr
  | cons g gs ih =>
    rw [rowsAt_cons, List.mem_append] at hr
    rcases hr with hr | hr
    · obtain ⟨t, -, rfl⟩ := List.mem_map.1 hr
      exact Int.le_refl _
    · have := ih hr
      omega

/-- The numbers of sentences, from the given one on. -/
def numbers (sentence : Int) : List Graph → List Int
  | [] => []
  | _ :: gs => sentence :: numbers (sentence + 1) gs

/-- Looking through the rows of one sentence adds its number, if there is a row. -/
theorem foldl_rowAt {ns : List Int} {sentence : Int} {g : Graph} (hne : g.tokens ≠ []) (hns : ∀ n ∈ ns, n < sentence) :
    (g.tokensInOrder.map (rowAt sentence g)).foldl (fun ns r => if ns.contains r.sentence then ns else ns ++ [r.sentence]) ns =
      ns ++ [sentence] := by
  have hseen : ∀ ts : List Token, (ts.map (rowAt sentence g)).foldl
      (fun ns r => if ns.contains r.sentence then ns else ns ++ [r.sentence]) (ns ++ [sentence]) = ns ++ [sentence] := by
    intro ts
    induction ts with
    | nil => rfl
    | cons t ts ih =>
      rw [List.map_cons, List.foldl_cons, sentence_rowAt, if_pos (List.contains_iff_mem.2 (List.mem_append_right ns (List.mem_singleton.2 rfl)))]
      exact ih
  have hnew : ns.contains sentence = false := by
    refine Bool.eq_false_iff.2 fun h => ?_
    have := hns sentence (List.contains_iff_mem.1 h)
    omega
  obtain ⟨t, ts, e⟩ := List.exists_cons_of_ne_nil (Graph.tokensInOrder_ne_nil hne)
  rw [e, List.map_cons, List.foldl_cons, sentence_rowAt, if_neg (fun h => Bool.false_ne_true (hnew.symm.trans h))]
  exact hseen ts

/-- Every graph is a sentence, in order. -/
theorem sentences_rowsAt {sentence : Int} {gs : List Graph} (hne : ∀ g ∈ gs, g.tokens ≠ []) :
    sentences (rowsAt sentence gs) = numbers sentence gs := by
  have hfold : ∀ {gs : List Graph} {sentence : Int} {ns : List Int}, (∀ g ∈ gs, g.tokens ≠ []) → (∀ n ∈ ns, n < sentence) →
      (rowsAt sentence gs).foldl (fun ns r => if ns.contains r.sentence then ns else ns ++ [r.sentence]) ns =
        ns ++ numbers sentence gs := by
    intro gs
    induction gs with
    | nil => intro sentence ns _ _; exact (List.append_nil ns).symm
    | cons g gs ih =>
      intro sentence ns hne hns
      obtain ⟨hg, hgs⟩ := List.forall_mem_cons.1 hne
      have hnext : ∀ n ∈ ns ++ [sentence], n < sentence + 1 := by
        intro n hn
        rcases List.mem_append.1 hn with hn | hn
        · have := hns n hn
          omega
        · have := List.mem_singleton.1 hn
          omega
      rw [rowsAt_cons, List.foldl_append, foldl_rowAt hg hns, ih hgs hnext, numbers, List.append_assoc]
      rfl
  exact (hfold hne (fun n hn => by cases hn)).trans (List.nil_append _)

/-- The graphs of rows are those of their sentences, one after the other. -/
theorem mapM_sentenceGraph {R : Graph → Graph → Prop} {gs : List Graph}
    (hgs : ∀ g ∈ gs, ∀ sentence, ∃ h, sentenceGraph (g.tokensInOrder.map (rowAt sentence g)) = .ok h ∧ R g h) {sentence : Int}
    {before : List TokenRow} (hbefore : ∀ r ∈ before, r.sentence < sentence) :
    ∃ hs, (numbers sentence gs).mapM (fun n => sentenceGraph ((before ++ rowsAt sentence gs).filter (·.sentence == n))) = .ok hs ∧
      List.Forall₂ R gs hs := by
  induction gs generalizing sentence before with
  | nil => exact ⟨[], rfl, .nil⟩
  | cons g gs ih =>
    obtain ⟨hg, hgs⟩ := List.forall_mem_cons.1 hgs
    have hfilter : (before ++ rowsAt sentence (g :: gs)).filter (·.sentence == sentence) =
        g.tokensInOrder.map (rowAt sentence g) := by
      have hold : before.filter (·.sentence == sentence) = [] := by
        refine List.filter_eq_nil_iff.2 fun r hr e => ?_
        have := hbefore r hr
        have := beq_iff_eq.1 e
        omega
      have hlater : (rowsAt (sentence + 1) gs).filter (·.sentence == sentence) = [] := by
        refine List.filter_eq_nil_iff.2 fun r hr e => ?_
        have := le_sentence_of_mem hr
        have := beq_iff_eq.1 e
        omega
      have hown : (g.tokensInOrder.map (rowAt sentence g)).filter (·.sentence == sentence) =
          g.tokensInOrder.map (rowAt sentence g) := by
        refine List.filter_eq_self.2 fun r hr => ?_
        obtain ⟨t, -, rfl⟩ := List.mem_map.1 hr
        exact beq_iff_eq.2 rfl
      rw [rowsAt_cons, List.filter_append, List.filter_append, hold, hlater, hown, List.nil_append, List.append_nil]
    obtain ⟨h, hok, hR⟩ := hg sentence
    have hnext : ∀ r ∈ before ++ g.tokensInOrder.map (rowAt sentence g), r.sentence < sentence + 1 := by
      intro r hr
      rcases List.mem_append.1 hr with hr | hr
      · have := hbefore r hr
        omega
      · obtain ⟨t, -, rfl⟩ := List.mem_map.1 hr
        exact Int.lt_succ _
    obtain ⟨hs, hoks, hRs⟩ := ih hgs hnext
    rw [List.append_assoc, ← rowsAt_cons] at hoks
    refine ⟨h :: hs, ?_, .cons hR hRs⟩
    rw [numbers, List.mapM_cons, hfilter, hok, hoks]
    rfl

/-! ## Tokens -/

/-- A token whose place is not negative comes back as it stood in the frame. -/
theorem token_rowAt (sentence : Int) (g : Graph) {t : Token} (ht : 0 ≤ t.position) : (rowAt sentence g t).token = t.framed := by
  have hplace : ¬ t.framed.position < 0 := Int.not_lt.2 ht
  exact if_neg hplace

/-- Rows of tokens with new indices are taken in. -/
theorem addTokens_rowAt (sentence : Int) {g h : Graph} {ts : List Token} (hplaces : ∀ t ∈ ts, 0 ≤ t.position)
    (hts : (ts.map (·.index)).Nodup) (hnew : ∀ t ∈ ts, h.hasToken t.index = false) (hh : h.Sound) :
    addTokens h (ts.map (rowAt sentence g)) = .ok ((ts.map Token.framed).foldl Graph.withToken h) ∧
      ((ts.map Token.framed).foldl Graph.withToken h).Sound := by
  induction ts generalizing h with
  | nil => exact ⟨rfl, hh⟩
  | cons t ts ih =>
    rw [List.map_cons, List.nodup_cons] at hts
    obtain ⟨ht, hnew⟩ := List.forall_mem_cons.1 hnew
    obtain ⟨hplace, hplaces⟩ := List.forall_mem_cons.1 hplaces
    have hadd : h.addToken t.framed = .ok (h.withToken t.framed) := by
      have hok : h.addToken t.framed = .ok { h with tokens := Graph.putEntry t.index t.framed h.tokens } :=
        if_neg (by rw [show h.hasToken t.framed.index = false from ht]; exact Bool.false_ne_true)
      rw [Graph.withToken, hok]
      rfl
    have hnext : ∀ u ∈ ts, (h.withToken t.framed).hasToken u.index = false := by
      intro u hu
      rw [Graph.withToken_eq (t := t.framed) ht, Bool.eq_false_iff, ne_eq, Graph.hasToken_iff, Graph.indices, Graph.mem_keys_putEntry]
      rintro (e | hm)
      · exact hts.1 (List.mem_map.2 ⟨u, hu, e⟩)
      · exact absurd (Graph.hasToken_iff.2 hm) (by simp [hnew u hu])
    obtain ⟨hok, hsound⟩ := ih hplaces hts.2 hnext (hh.addToken hadd)
    refine ⟨?_, hsound⟩
    rw [List.map_cons, addTokens, token_rowAt sentence g hplace, hadd]
    exact hok

/-! ## Graphs -/

/-- A graph of which a token frame says all that it has columns for. -/
structure Tabular (g : Graph) : Prop where
  sound : g.Sound
  nonempty : g.tokens ≠ []
  /-- At most one plain edge enters a token. -/
  governors : ∀ index ∈ g.indices, ((g.incomingBySlot index).filter (!·.extra)).length ≤ 1
  indices : ∀ index ∈ g.indices, 0 ≤ index
  positions : ∀ t ∈ g.tokenList, 0 ≤ t.position
  /-- Bars part the extra edges of a row. -/
  extraRelations : ∀ a ∈ g.arcs, a.edge.extra → '|' ∉ a.edge.relation.toList
  /-- No two edges differ in weight alone. -/
  weights : g.WeightBlind

/-- What comes back of a graph from a token frame. -/
structure Reframed (g h : Graph) : Prop where
  same : g.same h
  fields : h.tokenList.map (fun t => (t.index, t.upos, t.feats, t.misc)) = g.tokenList.map fun t => (t.index, t.upos, t.feats, t.misc)
  /-- The extra edges into a token stand in the order in which they stood. -/
  extra : ∀ index ∈ g.indices, ((h.incomingBySlot index).filter (·.extra)).map Edge.outline =
    ((g.incomingBySlot index).filter (·.extra)).map Edge.outline

/-- The graph `h` as far as it is built again: it has the tokens of `g`, some edges in the order in which they were added, and some
roots. -/
structure Grown (g : Graph) (es : List Edge) (roots : List Int) (h : Graph) : Prop where
  tokens : h.tokens.map (fun p => (p.1, p.2.unrooted)) = g.tokens.map fun p => (p.1, p.2.framed)
  arcs : h.arcs = (Graph.arcsFrom 0 es).reverse
  fresh : h.fresh = es.length
  free : h.free = []
  ascending : h.roots.Pairwise (· < ·)
  roots : ∀ i, i ∈ h.roots ↔ i ∈ roots

/-- The tokens of a frame are those of the graph. -/
theorem grown_addTokens {g : Graph} (hg : Tabular g) (sentence : Int) :
    ∃ h, addTokens {} (g.tokensInOrder.map (rowAt sentence g)) = .ok h ∧ Grown g [] [] h := by
  have hplaces : ∀ t ∈ g.tokensInOrder, 0 ≤ t.position := fun t ht => hg.positions t (g.perm_tokensInOrder.mem_iff.1 ht)
  obtain ⟨hok, hsound⟩ := addTokens_rowAt sentence (g := g) (h := {}) hplaces hg.sound.nodup_indices (fun _ _ => rfl)
    Graph.sound_empty
  have hindices : ((g.tokensInOrder.map Token.framed).map (·.index)).Nodup := by
    rw [List.map_map]
    exact hg.sound.nodup_indices
  obtain ⟨entries, hentries, hperm⟩ := Graph.foldl_withToken (g := {}) (g.tokensInOrder.map Token.framed) hindices fun _ _ => rfl
  rw [hentries] at hok hsound
  refine ⟨_, hok, ?_, rfl, rfl, rfl, List.Pairwise.nil, fun _ => Iff.rfl⟩
  have hlist : ((g.tokensInOrder.map Token.framed).map (fun t : Token => (t.index, t)) ++ []).Perm
      (g.tokens.map fun p : Int × Token => (p.1, p.2.framed)) := by
    have hframed : g.tokens.map (fun p => (p.1, p.2.framed)) = g.tokenList.map fun t => (t.index, t.framed) := by
      rw [Graph.tokenList, List.map_map]
      refine List.map_congr_left fun p hp => ?_
      rw [Function.comp_apply, hg.sound.placed p.1 p.2 (hg.sound.token?_eq_some_iff.2 hp)]
    rw [List.append_nil, List.map_map, hframed]
    exact g.perm_tokensInOrder.map _
  have hperm := hperm.trans hlist
  have hascending : (g.tokens.map fun p => (p.1, p.2.framed)).Pairwise fun x y => x.1 < y.1 :=
    List.pairwise_map.2 (List.pairwise_map.1 hg.sound.ascending)
  have hsame : entries = g.tokens.map fun p => (p.1, p.2.framed) :=
    List.Perm.eq_of_pairwise (fun x y _ _ hxy hyx => absurd hxy (by omega)) (List.pairwise_map.1 hsound.ascending) hascending hperm
  show entries.map (fun p => (p.1, p.2.unrooted)) = _
  rw [hsame, List.map_map]
  rfl

namespace Grown

variable {g h : Graph} {es : List Edge} {roots : List Int}

/-- A graph that is built again has the indices of the graph. -/
theorem hasToken_iff (hh : Grown g es roots h) {index : Int} : h.hasToken index ↔ g.hasToken index := by
  have hindices := congrArg (List.map (·.1)) hh.tokens
  rw [List.map_map, List.map_map] at hindices
  have hindices : h.indices = g.indices := hindices
  rw [Graph.hasToken_iff, Graph.hasToken_iff, hindices]

/-- An edge more, of an outline that no edge had. -/
theorem withEdge (hh : Grown g es roots h) {e : Edge} (hends : g.hasToken e.governor ∧ g.hasToken e.dependent)
    (hnew : e.outline ∉ es.map Edge.outline) : Grown g (es ++ [e]) roots (h.withEdge e) := by
  have hcontains : h.contains e = false := by
    refine List.any_eq_false.2 fun a ha hs => hnew ?_
    rw [hh.arcs] at ha
    have he := List.mem_map_of_mem (f := Arc.edge) (List.mem_reverse.1 ha)
    rw [Graph.map_edge_arcsFrom] at he
    exact List.mem_map.2 ⟨_, he, Edge.outline_of_same hs⟩
  rw [Graph.withEdge_eq hh.free ⟨hh.hasToken_iff.2 hends.1, hh.hasToken_iff.2 hends.2⟩ hcontains]
  refine ⟨hh.tokens, ?_, ?_, hh.free, hh.ascending, hh.roots⟩
  · show ⟨h.fresh, e⟩ :: h.arcs = _
    rw [Graph.arcsFrom_append, List.reverse_append, hh.arcs, hh.fresh, Nat.zero_add]
    rfl
  · show h.fresh + 1 = _
    rw [hh.fresh, List.length_append]
    rfl

/-- A root more. -/
theorem withRoot (hh : Grown g es roots h) {index : Int} (hi : g.hasToken index) :
    Grown g es (roots ++ [index]) (h.withRoot index) := by
  rw [Graph.withRoot, Graph.addRoot, if_pos (hh.hasToken_iff.2 hi)]
  refine ⟨hh.tokens, hh.arcs, hh.fresh, hh.free, Order.ascending_add index hh.ascending, fun i => ?_⟩
  show i ∈ Order.add index h.roots ↔ _
  rw [Order.mem_add, hh.roots, List.mem_append, List.mem_singleton, or_comm]

/-- The relation beside the head of a token is kept. -/
theorem modifyToken (hh : Grown g es roots h) (index : Int) (relation : Option String) :
    Grown g es roots (h.modifyToken index fun t => { t with rootRelation := relation }) := by
  refine ⟨?_, hh.arcs, hh.fresh, hh.free, hh.ascending, hh.roots⟩
  show (h.tokens.map _).map _ = _
  rw [← hh.tokens, List.map_map]
  refine List.map_congr_left fun p _ => ?_
  rw [Function.comp_apply]
  dsimp only
  split <;> rfl

/-- The entries of a row give its extra edges. -/
theorem addEntries (hh : Grown g es roots h) {r : TokenRow} (hr : g.hasToken r.index) {fs : List Edge}
    (hfs : ∀ e ∈ fs, e.extra = true ∧ e.dependent = r.index ∧ g.hasToken e.governor ∧ 0 ≤ e.governor)
    (hnew : ((es ++ fs).map Edge.outline).Nodup) :
    ∃ h', r.addEntries h (fs.map fun e => (depsEntry e).toList) = .ok h' ∧ Grown g (es ++ fs.map Edge.framed) roots h' := by
  induction fs generalizing h es with
  | nil => exact ⟨h, rfl, (List.append_nil es).symm ▸ hh⟩
  | cons e fs ih =>
    obtain ⟨⟨hextra, hdependent, hgovernor, hpos⟩, hfs⟩ := List.forall_mem_cons.1 hfs
    obtain ⟨n, hn⟩ := Int.eq_ofNat_of_zero_le hpos
    have hentry : (depsEntry e).toList = Text.natDigits n ++ ':' :: e.relation.toList := by
      rw [depsEntry, hn, String.toList_append, String.toList_append, String.toList_ofList, List.append_assoc]
      rfl
    have hcolon : ':' ∉ Text.natDigits n := fun hc => absurd (Text.isAsciiDigit_of_mem hc) (by decide)
    have hedge : (⟨e.governor, r.index, String.ofList e.relation.toList, .one, true⟩ : Edge) = e.framed := by
      rw [String.ofList_toList, ← hdependent, ← hextra]
      rfl
    have hends : g.hasToken e.framed.governor ∧ g.hasToken e.framed.dependent := ⟨hgovernor, by rw [← hdependent] at hr; exact hr⟩
    have hfirst : e.framed.outline ∉ es.map Edge.outline := by
      rw [List.map_append, List.nodup_append] at hnew
      exact fun hm => hnew.2.2 _ hm e.outline (List.mem_map_of_mem (List.mem_cons_self ..)) rfl
    have hnext : (((es ++ [e.framed]) ++ fs).map Edge.outline).Nodup := by
      simpa only [List.map_append, List.map_cons, List.map_nil, List.append_assoc, List.singleton_append, Edge.outline_framed] using hnew
    obtain ⟨h', hok, hh'⟩ := ih (hh.withEdge hends hfirst) hfs hnext
    refine ⟨h', ?_, by simpa only [List.map_cons, List.append_assoc, List.singleton_append] using hh'⟩
    rw [List.map_cons, TokenRow.addEntries, hentry, Text.splitFirst?_append hcolon]
    simp only [Option.getD_some, Numeral.int?_natDigits]
    refine bind_eq_ok_iff.2 ⟨h.withEdge e.framed, ?_, hok⟩
    rw [TokenRow.addEdge, ← hn, if_pos (hh.hasToken_iff.2 hgovernor), hedge]

end Grown

/-! ## Rows -/

/-- Whether the token of a row is a root. -/
def rootAt (g : Graph) (t : Token) : List Int := if g.isRoot t.index then [t.index] else []

/-- The extra edges into a token can be written as entries. -/
theorem of_mem_extra {g : Graph} (hg : Tabular g) {index : Int} {e : Edge} (he : e ∈ (g.incomingBySlot index).filter (·.extra)) :
    e.extra = true ∧ e.dependent = index ∧ g.hasToken e.governor ∧ 0 ≤ e.governor ∧ '|' ∉ e.relation.toList := by
  obtain ⟨he, hextra⟩ := List.mem_filter.1 he
  obtain ⟨a, ha, rfl, hdependent⟩ := Graph.exists_arc_of_mem_incomingBySlot he
  have hgovernor := (hg.sound.ends a ha).1
  exact ⟨hextra, hdependent, hgovernor, hg.indices _ (Graph.hasToken_iff.1 hgovernor), hg.extraRelations a ha hextra⟩

/-- The entries of a row are those of its extra edges. -/
theorem splitOn_deps {g : Graph} (hg : Tabular g) (index : Int) :
    let es := (g.incomingBySlot index).filter (·.extra)
    let deps := "|".intercalate (es.map depsEntry)
    (deps = "" ↔ es = []) ∧ (es ≠ [] → Text.splitOn '|' deps.toList = es.map fun e => (depsEntry e).toList) := by
  intro es deps
  have hbar : ∀ entry ∈ es.map (fun e => (depsEntry e).toList), '|' ∉ entry := by
    intro entry hentry
    obtain ⟨e, he, rfl⟩ := List.mem_map.1 hentry
    obtain ⟨-, -, -, hpos, hrelation⟩ := of_mem_extra hg he
    obtain ⟨n, hn⟩ := Int.eq_ofNat_of_zero_le hpos
    rw [depsEntry, hn, String.toList_append, String.toList_append, String.toList_ofList, List.mem_append, List.mem_append]
    rintro ((hc | hc) | hc)
    · exact absurd (Text.isAsciiDigit_of_mem hc) (by decide)
    · exact absurd hc (by decide)
    · exact hrelation hc
  have htext : deps.toList = ['|'].intercalate (es.map fun e => (depsEntry e).toList) := by
    show ("|".intercalate (es.map depsEntry)).toList = _
    rw [String.toList_intercalate, List.map_map]
    rfl
  have hsplit : es ≠ [] → Text.splitOn '|' deps.toList = es.map fun e => (depsEntry e).toList := by
    intro hne
    rw [htext]
    exact Text.splitOn_intercalate (by simpa using hne) hbar
  refine ⟨⟨fun hempty => ?_, fun hnil => ?_⟩, hsplit⟩
  · by_contra hne
    have hentries := hsplit hne
    rw [hempty] at hentries
    obtain ⟨e, rest, hes⟩ := List.exists_cons_of_ne_nil hne
    rw [hes, List.map_cons] at hentries
    have hentry : [] = (depsEntry e).toList := (List.cons.inj hentries).1
    rw [depsEntry, String.toList_append, String.toList_append] at hentry
    have hcolon : ':' ∈ ([] : List Char) := hentry ▸ List.mem_append_left _ (List.mem_append_right _ (List.mem_singleton.2 rfl))
    cases hcolon
  · show "|".intercalate (es.map depsEntry) = ""
    rw [hnil]
    rfl

/-- The first step of what a row says: its plain edge, or the relation beside its head. -/
def TokenRow.govern (r : TokenRow) (g : Graph) : Except RowError Graph :=
  match r.head with
  | some head => r.addEdge head (r.relation.getD "") false g
  | none => .ok (if r.isRoot then g.modifyToken r.index fun t => { t with rootRelation := r.relation } else g)

/-- The other steps of what a row says: whether its token is a root, and its extra edges. -/
def TokenRow.enroll (r : TokenRow) (g : Graph) : Except RowError Graph :=
  if r.deps = "" then .ok (if r.isRoot then g.withRoot r.index else g)
  else r.addEntries (if r.isRoot then g.withRoot r.index else g) (Text.splitOn '|' r.deps.toList)

/-- What a row says is added in two steps. -/
theorem attach_eq (r : TokenRow) (g : Graph) : r.attach g = r.govern g >>= r.enroll := by
  unfold TokenRow.attach TokenRow.govern
  cases r.head <;> rfl

/-- The row of a token gives the plain edge into it. -/
theorem Grown.govern {g h : Graph} (hg : Tabular g) {es : List Edge} {roots : List Int} (hh : Grown g es roots h) (sentence : Int)
    {t : Token} (ht : t ∈ g.tokensInOrder) (hnew : ∀ e ∈ g.governorEdge? t.index, e.outline ∉ es.map Edge.outline) :
    ∃ h', (rowAt sentence g t).govern h = .ok h' ∧ Grown g (es ++ (g.governorEdge? t.index).toList.map Edge.framed) roots h' := by
  cases hgoverned : g.governorEdge? t.index with
  | none =>
    have hhead : (rowAt sentence g t).head = none := by
      show (g.governorEdge? t.index).map _ = none
      rw [hgoverned]
      rfl
    unfold TokenRow.govern
    rw [hhead]
    refine ⟨_, rfl, ?_⟩
    simp only [Option.toList_none, List.map_nil, List.append_nil]
    split
    · exact hh.modifyToken _ _
    · exact hh
  | some e =>
    obtain ⟨hextra, hentering⟩ := Graph.plain_of_governorEdge? hgoverned
    obtain ⟨a, ha, hae, hdependent⟩ := Graph.exists_arc_of_mem_incomingBySlot hentering
    have hgovernor : g.hasToken e.governor := hae ▸ (hg.sound.ends a ha).1
    have hhead : (rowAt sentence g t).head = some e.governor := by
      show (g.governorEdge? t.index).map _ = _
      rw [hgoverned]
      rfl
    have hrelation : (rowAt sentence g t).relation.getD "" = e.relation := by
      show (((g.governorEdge? t.index).map (·.relation)).or t.rootRelation).getD "" = _
      rw [hgoverned]
      rfl
    have hedge : (⟨e.governor, t.index, e.relation, .one, false⟩ : Edge) = e.framed := by
      rw [← hdependent, ← hextra]
      rfl
    refine ⟨h.withEdge e.framed, ?_, hh.withEdge ⟨hgovernor, hdependent.symm ▸ hg.sound.hasToken_of_mem ht⟩ (hnew e hgoverned)⟩
    unfold TokenRow.govern
    rw [hhead]
    simp only [hrelation]
    rw [TokenRow.addEdge, if_pos (hh.hasToken_iff.2 hgovernor)]
    exact congrArg (fun e => Except.ok (h.withEdge e)) hedge

/-- The row of a token makes it a root if it was one, and gives the extra edges into it. -/
theorem Grown.enroll {g h : Graph} (hg : Tabular g) {es : List Edge} {roots : List Int} (hh : Grown g es roots h) (sentence : Int)
    {t : Token} (ht : t ∈ g.tokensInOrder)
    (hnew : ((es ++ (g.incomingBySlot t.index).filter (·.extra)).map Edge.outline).Nodup) :
    ∃ h', (rowAt sentence g t).enroll h = .ok h' ∧
      Grown g (es ++ ((g.incomingBySlot t.index).filter (·.extra)).map Edge.framed) (roots ++ rootAt g t) h' := by
  have hindex : g.hasToken t.index := hg.sound.hasToken_of_mem ht
  have hroot : Grown g es (roots ++ rootAt g t) (if (rowAt sentence g t).isRoot then h.withRoot t.index else h) := by
    show Grown g _ (roots ++ if g.isRoot t.index then [t.index] else []) (if g.isRoot t.index then h.withRoot t.index else h)
    split
    · exact hh.withRoot hindex
    · rw [List.append_nil]
      exact hh
  obtain ⟨hempty, hsplit⟩ := splitOn_deps hg t.index
  have hdeps : (rowAt sentence g t).deps = "|".intercalate (((g.incomingBySlot t.index).filter (·.extra)).map depsEntry) := rfl
  by_cases hnone : (g.incomingBySlot t.index).filter (·.extra) = []
  · refine ⟨_, if_pos (hdeps.trans (hempty.2 hnone)), ?_⟩
    rw [hnone, List.map_nil, List.append_nil]
    exact hroot
  · have hextras : ∀ e ∈ (g.incomingBySlot t.index).filter (·.extra),
        e.extra = true ∧ e.dependent = (rowAt sentence g t).index ∧ g.hasToken e.governor ∧ 0 ≤ e.governor := by
      intro e he
      obtain ⟨hextra, hdependent, hgovernor, hpos, -⟩ := of_mem_extra hg he
      exact ⟨hextra, hdependent, hgovernor, hpos⟩
    obtain ⟨h', hok, hh'⟩ := hroot.addEntries (r := rowAt sentence g t) hindex hextras hnew
    refine ⟨h', ?_, hh'⟩
    rw [← hsplit hnone, ← hdeps] at hok
    exact (if_neg fun e => hnone (hempty.1 (hdeps.symm.trans e))).trans hok

/-- The row of a token gives the edges into it, and makes it a root if it was one. -/
theorem Grown.attach {g h : Graph} (hg : Tabular g) {es : List Edge} {roots : List Int} (hh : Grown g es roots h) (sentence : Int)
    {t : Token} (ht : t ∈ g.tokensInOrder) (hnew : ((es ++ rowEdges g t).map Edge.outline).Nodup) :
    ∃ h', (rowAt sentence g t).attach h = .ok h' ∧ Grown g (es ++ (rowEdges g t).map Edge.framed) (roots ++ rootAt g t) h' := by
  rw [rowEdges, List.map_append, ← List.append_assoc]
  have hplain : ∀ e ∈ g.governorEdge? t.index, e.outline ∉ es.map Edge.outline := by
    intro e he hm
    rw [List.map_append, List.nodup_append, rowEdges] at hnew
    have hrow : e ∈ (g.governorEdge? t.index).toList ++ (g.incomingBySlot t.index).filter (·.extra) :=
      List.mem_append_left _ (Option.mem_toList.2 he)
    exact hnew.2.2 _ hm e.outline (List.mem_map_of_mem hrow) rfl
  obtain ⟨h₁, hok₁, hh₁⟩ := hh.govern hg sentence ht hplain
  have hextra : ((es ++ (g.governorEdge? t.index).toList.map Edge.framed ++
      (g.incomingBySlot t.index).filter (·.extra)).map Edge.outline).Nodup := by
    rw [List.map_append, List.map_append, Edge.map_outline_framed, ← List.map_append, ← List.map_append, List.append_assoc]
    exact hnew
  obtain ⟨h', hok', hh'⟩ := hh₁.enroll hg sentence ht hextra
  exact ⟨h', (attach_eq ..).trans (bind_eq_ok_iff.2 ⟨h₁, hok₁, hok'⟩), hh'⟩

/-- The rows of tokens give the edges into these, and make the roots among them roots. -/
theorem Grown.foldlM_attach {g h : Graph} (hg : Tabular g) {es : List Edge} {roots : List Int} (hh : Grown g es roots h)
    (sentence : Int) {ts : List Token} (hts : ∀ t ∈ ts, t ∈ g.tokensInOrder)
    (hnew : ((es ++ ts.flatMap (rowEdges g)).map Edge.outline).Nodup) :
    ∃ h', (ts.map (rowAt sentence g)).foldlM (fun g r => r.attach g) h = .ok h' ∧
      Grown g (es ++ (ts.flatMap (rowEdges g)).map Edge.framed) (roots ++ ts.flatMap (rootAt g)) h' := by
  induction ts generalizing h es roots with
  | nil =>
    refine ⟨h, rfl, ?_⟩
    simpa only [List.flatMap_nil, List.map_nil, List.append_nil] using hh
  | cons t ts ih =>
    obtain ⟨ht, hts⟩ := List.forall_mem_cons.1 hts
    rw [List.flatMap_cons, ← List.append_assoc] at hnew
    have hrow : ((es ++ rowEdges g t).map Edge.outline).Nodup := by
      rw [List.map_append] at hnew
      exact (List.nodup_append.1 hnew).1
    have hrest : ((es ++ (rowEdges g t).map Edge.framed ++ ts.flatMap (rowEdges g)).map Edge.outline).Nodup := by
      rw [List.map_append, List.map_append, Edge.map_outline_framed, ← List.map_append, ← List.map_append]
      exact hnew
    obtain ⟨h₁, hok, hh₁⟩ := hh.attach hg sentence ht hrow
    obtain ⟨h', hoks, hh'⟩ := ih hh₁ hts hrest
    refine ⟨h', ?_, ?_⟩
    · rw [List.map_cons, List.foldlM_cons]
      exact bind_eq_ok_iff.2 ⟨h₁, hok, hoks⟩
    · simpa only [List.flatMap_cons, List.map_append, List.append_assoc] using hh'

/-! ## Reading back -/

/-- The rows of a graph have the edges of the graph. -/
theorem perm_outlines_rowEdges {g : Graph} (hg : Tabular g) :
    ((g.tokensInOrder.flatMap (rowEdges g)).map Edge.outline).Perm (g.arcs.map fun a => a.edge.outline) := by
  have hmap := (Conllu.perm_flatMap_rowEdges hg.sound hg.governors).map Edge.outline
  rwa [List.map_map] at hmap

section Regrown

variable {g h : Graph} {es : List Edge} {roots : List Int}

/-- What neither a frame nor a new list of roots changes in a token is in the tokens of the graph that is built again. -/
theorem Grown.map_tokenList {β : Type} (hh : Grown g es roots h) (f : Token → β) (hunrooted : ∀ t, f t.unrooted = f t)
    (hframed : ∀ t, f t.framed = f t) : h.tokenList.map f = g.tokenList.map f := by
  have htokens := congrArg (List.map fun p => f p.2) hh.tokens
  rw [List.map_map, List.map_map] at htokens
  rw [Graph.tokenList, Graph.tokenList, List.map_map, List.map_map]
  calc h.tokens.map (f ∘ (·.2))
    _ = h.tokens.map ((fun p : Int × Token => f p.2) ∘ fun p => (p.1, p.2.unrooted)) :=
      List.map_congr_left fun p _ => (hunrooted p.2).symm
    _ = g.tokens.map ((fun p : Int × Token => f p.2) ∘ fun p => (p.1, p.2.framed)) := htokens
    _ = g.tokens.map (f ∘ (·.2)) := List.map_congr_left fun p _ => hframed p.2

/-- A graph that is built again has the roots among the tokens of the rows. -/
theorem Grown.roots_eq (hg : Tabular g) (hh : Grown g es (g.tokensInOrder.flatMap (rootAt g)) h) : g.roots = h.roots := by
  refine Graph.eq_of_ascending hg.sound.rootsAscending hh.ascending fun i => ?_
  rw [hh.roots, List.mem_flatMap]
  constructor
  · intro hi
    obtain ⟨t, ht, rfl⟩ := hg.sound.exists_token (hg.sound.roots i hi)
    refine ⟨t, ht, ?_⟩
    rw [rootAt, if_pos (show g.isRoot t.index from List.contains_iff_mem.2 hi)]
    exact List.mem_singleton.2 rfl
  · rintro ⟨t, -, hi⟩
    unfold rootAt at hi
    split at hi
    · rename_i hroot
      rw [List.mem_singleton.1 hi]
      exact List.contains_iff_mem.1 hroot
    · cases hi

/-- A graph that is built again has the edges of the rows, but for their weights. -/
theorem Grown.map_outline_edges (hg : Tabular g) (hh : Grown g ((g.tokensInOrder.flatMap (rowEdges g)).map Edge.framed) roots h) :
    g.edges.map Edge.outline = h.edges.map Edge.outline := by
  have hbuilt : (h.arcs.map fun a => a.edge.outline) = ((g.tokensInOrder.flatMap (rowEdges g)).map Edge.outline).reverse := by
    rw [hh.arcs, List.map_reverse, ← Edge.map_outline_framed]
    conv => rhs; rw [← Graph.map_edge_arcsFrom 0 ((g.tokensInOrder.flatMap (rowEdges g)).map Edge.framed), List.map_map]
    rfl
  have hperm : (g.arcs.map fun a => a.edge.outline).Perm (h.arcs.map fun a => a.edge.outline) := by
    rw [hbuilt]
    exact (perm_outlines_rowEdges hg).symm.trans (List.reverse_perm _).symm
  exact Order.map_sortBy_eq_of_perm (fun _ _ _ _ => Edge.cmp_congr)
    (g.perm_outlines_bySlot.trans (hperm.trans h.perm_outlines_bySlot.symm)) fun a _ b _ => Edge.outline_of_cmp

/-- The edges into a token are, in a graph that is built again, those of its row. -/
theorem Grown.incomingBySlot_eq (hg : Tabular g) (hh : Grown g ((g.tokensInOrder.flatMap (rowEdges g)).map Edge.framed) roots h)
    {t : Token} (ht : t ∈ g.tokensInOrder) : h.incomingBySlot t.index = (rowEdges g t).map Edge.framed := by
  have hdependent : ∀ t ∈ g.tokensInOrder, ∀ e ∈ rowEdges g t, e.dependent = t.index := by
    intro t ht e he
    have hone := hg.governors t.index (Graph.hasToken_iff.1 (hg.sound.hasToken_of_mem ht))
    obtain ⟨-, -, -, hdependent⟩ := Graph.exists_arc_of_mem_incomingBySlot ((Conllu.perm_rowEdges hone).mem_iff.1 he)
    exact hdependent
  have hown : (g.tokensInOrder.flatMap (rowEdges g)).filter (·.dependent == t.index) = rowEdges g t :=
    filter_flatMap_eq hg.sound.nodup_indices hdependent ht
  rw [Graph.incomingBySlot_of_arcs hh.arcs, List.filter_map, ← hown]
  rfl

/-- A graph that is built again with all edges and roots of a graph keeps what a frame has columns for. -/
theorem Grown.reframed (hg : Tabular g)
    (hh : Grown g ((g.tokensInOrder.flatMap (rowEdges g)).map Edge.framed) (g.tokensInOrder.flatMap (rootAt g)) h) :
    Reframed g h := by
  refine ⟨beq_iff_eq.2 (?_ : g.signature = h.signature), hh.map_tokenList _ (fun _ => rfl) fun _ => rfl, fun index hi => ?_⟩
  · rw [Graph.signature, Graph.signature, hh.roots_eq hg]
    exact congrArg₂ (Graph.Signature.mk · · h.roots) (hh.map_tokenList _ (fun _ => rfl) fun _ => rfl).symm (hh.map_outline_edges hg)
  · obtain ⟨t, ht, rfl⟩ := hg.sound.exists_token (Graph.hasToken_iff.2 hi)
    have hone := hg.governors t.index hi
    rw [hh.incomingBySlot_eq hg ht, List.filter_map, List.map_map, ← Conllu.filter_rowEdges hone]
    rfl

end Regrown

/-- The rows of a graph give it again. -/
theorem sentenceGraph_rowAt {g : Graph} (hg : Tabular g) (sentence : Int) :
    ∃ h, sentenceGraph (g.tokensInOrder.map (rowAt sentence g)) = .ok h ∧ Reframed g h := by
  obtain ⟨h₀, hok₀, hh₀⟩ := grown_addTokens hg sentence
  have hnodup : (([] ++ g.tokensInOrder.flatMap (rowEdges g)).map Edge.outline).Nodup :=
    (perm_outlines_rowEdges hg).nodup_iff.2 (hg.weights.nodup_outlines hg.sound.orderly)
  obtain ⟨h, hok, hh⟩ := hh₀.foldlM_attach hg sentence (fun _ ht => ht) hnodup
  exact ⟨h, bind_eq_ok_iff.2 ⟨h₀, hok₀, hok⟩, hh.reframed hg⟩

/-- From the token frame of graphs come as many graphs, each of which keeps what a frame has columns for. -/
theorem graphs_ofGraphs {gs : List Graph} (hgs : ∀ g ∈ gs, Tabular g) :
    ∃ hs, (ofGraphs gs).graphs = .ok hs ∧ List.Forall₂ Reframed gs hs := by
  have hnone : ∀ r ∈ ([] : List TokenRow), r.sentence < 0 := fun r hr => absurd hr List.not_mem_nil
  obtain ⟨hs, hok, hR⟩ := mapM_sentenceGraph (R := Reframed) (fun g hg sentence => sentenceGraph_rowAt (hgs g hg) sentence) hnone
  refine ⟨hs, ?_, hR⟩
  rw [graphs_ofGraphs_eq]
  show (graphsOfRows (rowsAt 0 gs)).mapError BuildError.row = _
  rw [graphsOfRows, sentences_rowsAt fun g hg => (hgs g hg).nonempty]
  rw [List.nil_append] at hok
  rw [hok]
  rfl

/-- The graph of a sentence with an elided verb, after edits: indices, positions and slots have gaps, the root has a governor and an
extra edge to itself, and relations hold colons. -/
def eloping : Graph where
  tokens := [(0, { index := 0, word := "He", upos := "PRON", position := 2 }),
    (3, { index := 3, word := "left", baseForm := "leave", upos := "VERB", feats := "Tense=Past", position := 4 }),
    (8, { index := 8, baseForm := "leave", upos := "VERB", misc := "CopyOf=3", position := 4, emptyIndex := 1 })]
  arcs := [⟨4, { governor := 3, dependent := 3, relation := "conj:and", extra := true }⟩,
    ⟨0, { governor := 0, dependent := 3, relation := "acl:relcl" }⟩,
    ⟨2, { governor := 3, dependent := 0, relation := "nsubj" }⟩,
    ⟨5, { governor := 3, dependent := 8, relation := "conj:and:then", extra := true }⟩,
    ⟨1, { governor := 8, dependent := 0, relation := "nsubj:xsubj", extra := true }⟩]
  free := [3]
  fresh := 6
  roots := [3]

/-- So it is with two sentences, each with an elided verb, a root that has a governor, and gaps in indices, positions and slots. -/
theorem graphs_ofGraphs_eloping :
    (∀ g ∈ [eloping, eloping], Tabular g) ∧
      ∃ hs, (ofGraphs [eloping, eloping]).graphs = .ok hs ∧ List.Forall₂ Reframed [eloping, eloping] hs := by
  have hplaced : ∀ index t, eloping.token? index = some t → t.index = index := by
    intro index t ht
    have hm := Pairs.mem_of_lookup_eq ht
    simp only [eloping, List.mem_cons, Prod.mk.injEq, List.not_mem_nil, or_false] at hm
    rcases hm with ⟨rfl, rfl⟩ | ⟨rfl, rfl⟩ | ⟨rfl, rfl⟩ <;> rfl
  have hsound : eloping.Sound := by
    refine ⟨by decide, hplaced, by decide, by decide, ?_, by decide, by decide⟩
    show ([4, 0, 2, 5, 1] ++ [3]).Perm (List.range 6)
    decide
  have hweights : eloping.WeightBlind := by
    unfold Graph.WeightBlind
    decide
  have hg : Tabular eloping := ⟨hsound, by decide, by decide, by decide, by decide, by decide, hweights⟩
  have hgs : ∀ g ∈ [eloping, eloping], Tabular g := by
    intro g hm
    rcases List.mem_cons.1 hm with rfl | hm
    · exact hg
    · rw [List.mem_singleton.1 hm]
      exact hg
  exact ⟨hgs, graphs_ofGraphs hgs⟩

end Frame

end Treebank
