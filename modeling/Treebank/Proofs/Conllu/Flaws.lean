import Treebank.Proofs.Conllu.Blocks

/-!
# What is wrong with a sentence

The lines of a sentence are looked at three times: as they come in, for the comment lines and the columns; when the sentence ends, for
the ids of all its rows; and then for the heads that they name (`Fault.pass`). Rows of which no graph can be built fail for the first
flaw of the first pass that finds one (`isFirst_of_buildGraph`).
-/

namespace Treebank.Conllu

/-- Which look at a sentence finds a fault: the one at its lines as they come in, the one at its ids, or the one at its heads. -/
def Fault.pass : Fault → Nat
  | columnCount _ | commentsAlone | commentInside => 0
  | rangeInvalid _ | idDuplicate _ | idInvalid _ => 1
  | headUnknown _ | depsMalformed _ => 2

/-- There is no pass after the one at the heads. -/
theorem Fault.pass_le (fault : Fault) : fault.pass ≤ 2 := by
  cases fault <;> simp [pass]

/-! ## Ids -/

/-- What is wrong with the id of a row behind other rows. -/
inductive IdFlaw (before : List Row) (row : Row) : Fault → Prop
  /-- It is a span that stops before it starts. -/
  | reversed {a b : Nat} (hid : RowId.Spelled (.span a b) row.id.toList) (h : b < a) : IdFlaw before row (.rangeInvalid row.id)
  /-- It is none. -/
  | invalid (hid : ∀ id, ¬ RowId.Spelled id row.id.toList) : IdFlaw before row (.idInvalid row.id)
  /-- A token before has it. -/
  | duplicate (htoken : ¬ row.IsSpan) (hid : row.id ∈ (tokenRows before).map (·.id)) : IdFlaw before row (.idDuplicate row.id)

variable {before after rows : List Row} {row : Row} {fault : Fault} {e : FormatError} {ps : List (Row × RowId)} {s : Roster}

/-- A flaw of an id is found when the ids are looked at. -/
theorem IdFlaw.pass_eq (h : IdFlaw before row fault) : fault.pass = 1 := by
  cases h <;> rfl

/-- The tokens that were taken in of rows have the ids of the rows of tokens. -/
theorem Identified.map_tokens (h : Identified rows ps) : (rosterOf ps).tokens.map (·.1.id) = (tokenRows rows).map (·.id) := h.knownOf_eq

/-- A row that is not taken in behind others has a flaw in its id. -/
theorem idFlaw_of_add (h : Identified before ps) (hadd : (rosterOf ps).add row = .error e) :
    IdFlaw before row e.fault ∧ e.lineNumber = row.lineNumber := by
  unfold Roster.add at hadd
  split at hadd
  · rename_i a b hid
    split at hadd
    · rename_i hlt
      cases hadd
      exact ⟨.reversed (ofText?_eq_some_iff.1 hid) hlt, rfl⟩
    · cases hadd
  · rename_i hspan
    have htoken : ¬ row.IsSpan := fun ⟨a, b, hid⟩ => hspan a b (ofText?_eq_some_iff.2 hid)
    split at hadd
    · rename_i hany
      cases hadd
      refine ⟨.duplicate htoken ?_, rfl⟩
      obtain ⟨p, hp, hid⟩ := List.any_eq_true.1 hany
      rw [← h.map_tokens]
      exact List.mem_map.2 ⟨p, hp, beq_iff_eq.1 hid⟩
    · split at hadd
      · cases hadd
      · rename_i hid
        cases hadd
        refine ⟨.invalid fun id hspelled => ?_, rfl⟩
        rw [ofText?_eq_some_iff.2 hspelled] at hid
        cases hid

/-- The ids of rows that are taken in have no flaws. -/
theorem Identified.not_idFlaw (h : Identified rows ps) (hcut : rows = before ++ row :: after) : ¬ IdFlaw before row fault := by
  have hrow : row ∈ ps.map (·.1) := by
    rw [h.rows_eq, hcut]
    exact List.mem_append_right _ (List.mem_cons_self ..)
  obtain ⟨p, hp, rfl⟩ := List.mem_map.1 hrow
  intro hflaw
  cases hflaw with
  | @reversed a b hid hlt =>
    have hspan : p.2 = .span a b := Option.some.inj ((h.ids p hp).symm.trans (ofText?_eq_some_iff.2 hid))
    have hcounts := h.counts p hp
    rw [hspan] at hcounts
    exact absurd hcounts.2 (Nat.not_le.2 hlt)
  | invalid hid => exact hid _ (ofText?_eq_some_iff.1 (h.ids p hp))
  | duplicate htoken hid =>
    have hdistinct : ((tokenRows rows).map (·.id)).Nodup := h.knownOf_eq ▸ show (knownOf ps).Nodup from h.distinct
    have hrows : tokenRows rows = tokenRows before ++ p.1 :: tokenRows after := by
      rw [hcut, tokenRows, List.filter_append, List.filter_cons_of_pos (by simpa using htoken)]
      rfl
    rw [hrows, List.map_append, List.map_cons] at hdistinct
    exact List.disjoint_of_nodup_append hdistinct hid (List.mem_cons_self ..)

/-! ## Heads -/

/-- What is wrong with the heads that a row names, where `known` are the ids of the tokens. -/
inductive HeadFlaw (known : List String) (row : Row) : Fault → Prop
  /-- The head is no token. -/
  | head (hzero : row.head ≠ "0") (hblank : row.head ≠ blank) (hhead : row.head ∉ known) : HeadFlaw known row (.headUnknown row.head)
  /-- An entry of the enhanced column has no colon, or nothing behind the first one. -/
  | entry {entry : List Char} (hentry : entry ∈ row.entries)
      (hnone : ∀ head relation, entry = head ++ ':' :: relation → ':' ∉ head → relation = []) :
      HeadFlaw known row (.depsMalformed (String.ofList entry))
  /-- The head of an entry of the enhanced column is no token. -/
  | link {head relation : List Char} (hentry : head ++ ':' :: relation ∈ row.entries) (hcolon : ':' ∉ head) (hrelation : relation ≠ [])
      (hzero : head ≠ ['0']) (hhead : String.ofList head ∉ known) : HeadFlaw known row (.headUnknown (String.ofList head))

variable {known : List String} {locate : String → Int} {ids : Indices} {index : Int}

/-- A flaw of a head is found when the heads are looked at. -/
theorem HeadFlaw.pass_eq (h : HeadFlaw known row fault) : fault.pass = 2 := by
  cases h <;> rfl

/-- A head that is not found is unknown. -/
theorem of_resolve_eq_error (h : Knows known locate ids) {head : String} (hresolve : resolve ids row head = .error e) :
    head ∉ known ∧ e = ⟨.headUnknown head, row.lineNumber, ""⟩ := by
  refine ⟨fun hhead => ?_, ?_⟩
  · rw [(resolve_eq_ok_iff h).2 ⟨hhead, rfl⟩] at hresolve
    cases hresolve
  · unfold resolve at hresolve
    split at hresolve
    · cases hresolve
    · cases hresolve
      rfl

/-- Entries of the enhanced column that give no edges have a flaw. -/
theorem headFlaw_of_extraEdges (h : Knows known locate ids) {entries : List (List Char)} (hentries : entries ⊆ row.entries)
    (hedges : row.extraEdges ids index entries = .error e) : HeadFlaw known row e.fault ∧ e.lineNumber = row.lineNumber := by
  induction entries with
  | nil => cases hedges
  | cons entry entries ih =>
    obtain ⟨hentry, hothers⟩ := List.cons_subset.1 hentries
    rw [Row.extraEdges] at hedges
    split at hedges
    · rename_i head c relation hsplit
      obtain ⟨rfl, hcolon⟩ := Text.of_splitFirst?_eq_some hsplit
      split at hedges
      · exact ih hothers hedges
      · rename_i hzero
        rcases bind_eq_error_iff.1 hedges with hresolve | ⟨governor, -, hedges⟩
        · obtain ⟨hhead, rfl⟩ := of_resolve_eq_error h hresolve
          exact ⟨.link hentry hcolon (List.cons_ne_nil _ _) hzero hhead, rfl⟩
        · rcases bind_eq_error_iff.1 hedges with hedges | ⟨es, -, hedges⟩
          · exact ih hothers hedges
          · cases hedges
    · rename_i hsplit
      cases hedges
      refine ⟨.entry hentry fun head relation hcut hcolon => ?_, rfl⟩
      cases relation with
      | nil => rfl
      | cons c relation => exact absurd (hcut ▸ Text.splitFirst?_append hcolon (c :: relation)) (hsplit head c relation)

/-- A row that gives no edges has a flaw in a head. -/
theorem headFlaw_of_edges (h : Knows known locate ids) (hedges : row.edges ids index = .error e) :
    HeadFlaw known row e.fault ∧ e.lineNumber = row.lineNumber := by
  rcases bind_eq_error_iff.1 hedges with hplain | ⟨es, -, hedges⟩
  · unfold Row.plainEdges at hplain
    split at hplain
    · cases hplain
    · rename_i hhead
      simp only [Bool.or_eq_true, decide_eq_true_eq, not_or] at hhead
      rcases bind_eq_error_iff.1 hplain with hresolve | ⟨governor, -, hplain⟩
      · obtain ⟨hunknown, rfl⟩ := of_resolve_eq_error h hresolve
        exact ⟨.head hhead.1 hhead.2 hunknown, rfl⟩
      · cases hplain
  · rcases bind_eq_error_iff.1 hedges with hextra | ⟨es, -, hedges⟩
    · exact headFlaw_of_extraEdges h (List.Subset.refl _) hextra
    · cases hedges

/-- A row that refers to known heads alone has no flaw in a head. -/
theorem Row.Refers.not_headFlaw (h : row.Refers known) : ¬ HeadFlaw known row fault := by
  intro hflaw
  cases hflaw with
  | head hzero hblank hhead => exact hhead ((h.head.resolve_left hzero).resolve_left hblank)
  | entry hentry hnone =>
    obtain ⟨head, relation, hsplit, hne, -⟩ := h.entries _ hentry
    exact hne (hnone head relation (Text.of_splitFirst?_eq_some hsplit).1 (Text.of_splitFirst?_eq_some hsplit).2)
  | link hentry hcolon hrelation hzero hhead =>
    obtain ⟨head', relation', hsplit, -, hknown⟩ := h.entries _ hentry
    rw [Text.splitFirst?_append hcolon] at hsplit
    obtain ⟨rfl, rfl⟩ := Prod.mk.inj (Option.some.inj hsplit)
    exact hknown.elim hzero hhead

/-! ## The first flaw -/

/-- A fault at a line is one of those that there are, and comes first: no fault is found in a pass before, and none at a line above in the
same pass. -/
structure IsFirst (flaws : Fault → Nat → Prop) (fault : Fault) (k : Nat) : Prop where
  stands : flaws fault k
  first : ∀ fault' k', flaws fault' k' → fault.pass < fault'.pass ∨ fault.pass = fault'.pass ∧ k ≤ k'

/-- What is wrong with rows of a sentence, and at which line. -/
inductive RowFlaw (rows : List Row) : Fault → Nat → Prop
  | id {before after : List Row} {row : Row} {fault : Fault} (hcut : rows = before ++ row :: after) (h : IdFlaw before row fault) :
      RowFlaw rows fault row.lineNumber
  | head {row : Row} {fault : Fault} (hrow : row ∈ tokenRows rows) (h : HeadFlaw ((tokenRows rows).map (·.id)) row fault) :
      RowFlaw rows fault row.lineNumber

/-- A member of a list that goes up stands before another one, or is not below it. -/
theorem le_of_pairwise {α : Type} {f : α → Nat} {before after : List α} {a b : α} (h : (before ++ a :: after).Pairwise (f · < f ·))
    (hb : b ∈ before ++ a :: after) (hbefore : b ∉ before) : f a ≤ f b := by
  rcases List.mem_cons.1 ((List.mem_append.1 hb).resolve_left hbefore) with rfl | hafter
  · exact Nat.le_refl _
  · exact Nat.le_of_lt ((List.pairwise_cons.1 (List.pairwise_append.1 h).2.1).1 b hafter)

/-- Where a list that goes up is cut at two members, the second one is not below the first one, or what stands before it is cut there. -/
theorem le_or_cut_of_pairwise {α : Type} {f : α → Nat} {before after before' after' : List α} {a b : α}
    (h : (before ++ a :: after).Pairwise (f · < f ·)) (hcut : before ++ a :: after = before' ++ b :: after') :
    f a ≤ f b ∨ ∃ between, before = before' ++ b :: between := by
  rcases List.append_eq_append_iff.1 hcut with ⟨between, -, hbehind⟩ | ⟨between, hbefore, hbehind⟩
  · left
    cases between with
    | nil =>
      obtain ⟨rfl, -⟩ := List.cons.inj hbehind
      exact Nat.le_refl _
    | cons c between =>
      obtain ⟨rfl, hafter⟩ := List.cons.inj hbehind
      exact Nat.le_of_lt ((List.pairwise_cons.1 (List.pairwise_append.1 h).2.1).1 b (hafter ▸ by simp))
  · cases between with
    | nil =>
      obtain ⟨rfl, -⟩ := List.cons.inj hbehind
      exact .inl (Nat.le_refl _)
    | cons c between =>
      obtain ⟨rfl, -⟩ := List.cons.inj hbehind
      exact .inr ⟨between, hbefore⟩

variable {comments : List String} {g : Graph} {k : Nat}

/-- Rows of which a graph is built have no flaws. -/
theorem not_rowFlaw_of_buildGraph (h : buildGraph comments rows = .ok g) : ¬ RowFlaw rows fault k := by
  obtain ⟨ps, hps, hrefers⟩ := sensible_iff.1 (exists_buildGraph_iff.1 ⟨g, h⟩)
  intro hflaw
  cases hflaw with
  | id hcut hid => exact hps.not_idFlaw hcut hid
  | head hrow hhead =>
    rw [hps.tokenRows_eq] at hrow
    obtain ⟨p, hp, rfl⟩ := List.mem_map.1 hrow
    exact (hrefers p hp).not_headFlaw (hps.knownOf_eq ▸ hhead)

/-- Rows of which no graph can be built fail for their first flaw. -/
theorem isFirst_of_buildGraph (hnumbers : rows.Pairwise (·.lineNumber < ·.lineNumber)) (h : buildGraph comments rows = .error e) :
    IsFirst (RowFlaw rows) e.fault e.lineNumber := by
  rcases bind_eq_error_iff.1 h with hadd | ⟨s, hadd, h⟩
  · obtain ⟨before, row, after, s, rfl, hbefore, hrow⟩ := foldlM_eq_error_iff.1 hadd
    obtain ⟨ps, hps, rfl⟩ := foldlM_add_eq_ok_iff.1 hbefore
    obtain ⟨hflaw, hline⟩ := idFlaw_of_add hps hrow
    rw [hline]
    refine ⟨.id rfl hflaw, fun fault k hother => ?_⟩
    cases hother with
    | id hcut hid =>
      rcases le_or_cut_of_pairwise hnumbers hcut with hle | ⟨between, hcut⟩
      · exact .inr ⟨by rw [hflaw.pass_eq, hid.pass_eq], hle⟩
      · exact absurd hid (hps.not_idFlaw hcut)
    | head _ hhead => exact .inl (by rw [hflaw.pass_eq, hhead.pass_eq]; decide)
  · rcases bind_eq_error_iff.1 h with hedges | ⟨ess, -, h⟩
    · obtain ⟨ps, hps, rfl⟩ := foldlM_add_eq_ok_iff.1 hadd
      obtain ⟨locate, hr⟩ := hps.exists_resolved
      obtain ⟨before, x, after, hentries, hbefore, hx⟩ := of_mapM_eq_error hedges
      obtain ⟨hflaw, hline⟩ := headFlaw_of_edges hr.knows hx
      have hrows : tokenRows rows = before.map (·.1) ++ x.1 :: after.map (·.1) := by
        have hentries' : (entriesOf ps).map (·.1) = before.map (·.1) ++ x.1 :: after.map (·.1) := by
          rw [show entriesOf ps = _ from hentries, List.map_append, List.map_cons]
        rw [hps.tokenRows_eq, ← hentries', hr.entries, List.map_map]
        rfl
      have htokens : (before.map (·.1) ++ x.1 :: after.map (·.1)).Pairwise (·.lineNumber < ·.lineNumber) :=
        hrows ▸ hnumbers.sublist List.filter_sublist
      rw [hline]
      rw [hps.knownOf_eq] at hflaw
      refine ⟨.head (hrows ▸ by simp) hflaw, fun fault k hother => ?_⟩
      cases hother with
      | id hcut hid => exact absurd hid (hps.not_idFlaw hcut)
      | @head row _ hrow hhead =>
        refine .inr ⟨by rw [hflaw.pass_eq, hhead.pass_eq], le_of_pairwise htokens (hrows ▸ hrow) fun hmem => ?_⟩
        obtain ⟨y, hy, rfl⟩ := List.mem_map.1 hmem
        obtain ⟨es, hes⟩ := hbefore y hy
        exact ((edges_eq_ok_iff hr.knows).1 hes).1.not_headFlaw (hps.knownOf_eq ▸ hhead)
    · cases h

end Treebank.Conllu
