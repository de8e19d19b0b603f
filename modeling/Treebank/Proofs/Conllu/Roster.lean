import Treebank.Proofs.Conllu.Canonical
import Treebank.Proofs.Except
import Treebank.Proofs.Pairs

/-!
# Rosters

The rows of a canonical sentence are all taken in, those of tokens in order and the surface words apart, and every token gets an
index of its own: an ordinary one its number, an elided one a number above those.
-/

namespace Treebank

/-- A surface word spans positions from one on. -/
def Multiword.Counts (m : Multiword) : Prop := 0 < m.start ∧ m.start ≤ m.stop

namespace Conllu

/-! ## Rows with their ids -/

/-- What an id says is read from it. -/
theorem ofText?_of_fits {known : List String} {row : Row} {id : RowId} (h : row.Fits known id) (hc : id.Counts) :
    RowId.ofText? row.id = some id := by
  rw [h.named]
  exact ofText?_text hc

/-- Rows that can be taken in, each with what its id says; `known` are the ids of the tokens in writing, no two of which are alike. -/
structure Readable (known : List String) (ps : List (Row × RowId)) : Prop where
  counts : ∀ p ∈ ps, p.2.Counts
  fits : ∀ p ∈ ps, p.1.Fits known p.2
  known_eq : known = (ps.filter (·.2.isToken)).map (·.1.id)
  nodup_known : known.Nodup

/-- The rows of a canonical sentence, each with what its id says; `known` are the ids of the tokens in writing. -/
structure Sheet (known : List String) (ps : List (Row × RowId)) : Prop where
  arranged : Arranged 0 0 false (ps.map (·.2))
  fits : ∀ p ∈ ps, p.1.Fits known p.2
  known_eq : known = (ps.filter (·.2.isToken)).map (·.1.id)

/-- The rows of a canonical sentence say what their ids are. -/
theorem Canonical.exists_sheet {comments : List String} {rows : List Row} (h : Canonical comments rows) :
    ∃ known ps, Sheet known ps ∧ ps.map (·.1) = rows := by
  obtain ⟨l, hl⟩ := h.layout
  have hlength := hl.length_eq
  have hids : (rows.zip l.ids).map (·.2) = l.ids := List.map_snd_zip hlength.le
  have hrows : (rows.zip l.ids).map (·.1) = rows := List.map_fst_zip hlength.ge
  have hfits : ∀ p ∈ rows.zip l.ids, p.1.Fits l.known p.2 := fun p hp => (List.forall₂_iff_zip.1 hl.flip).2 hp
  refine ⟨l.known, rows.zip l.ids, ⟨hids.symm ▸ l.arranged, hfits, ?_⟩, hrows⟩
  have hknown : l.known = (((rows.zip l.ids).map (·.2)).filter (·.isToken)).map (·.text) := by rw [hids, Layout.known]
  rw [hknown, List.filter_map, List.map_map]
  exact List.map_congr_left fun p hp => ((hfits p (List.mem_filter.1 hp).1).named).symm

namespace Sheet

variable {known : List String} {ps : List (Row × RowId)}

/-- The ids count. -/
theorem counts (h : Sheet known ps) {p : Row × RowId} (hp : p ∈ ps) : p.2.Counts :=
  counts_of_arranged h.arranged p.2 (List.mem_map_of_mem hp)

/-- The tokens come one before the other. -/
theorem pairwise_before (h : Sheet known ps) : (ps.filter (·.2.isToken)).Pairwise fun p q => p.2.Before q.2 := by
  have hbefore := Conllu.pairwise_before h.arranged
  rw [List.filter_map] at hbefore
  exact List.pairwise_map.1 hbefore

/-- No two tokens have the same id. -/
theorem nodup_ids (h : Sheet known ps) : ((ps.filter (·.2.isToken)).map (·.2)).Nodup := by
  refine List.pairwise_map.2 (h.pairwise_before.imp fun hbefore e => ?_)
  rw [RowId.Before, e] at hbefore
  omega

/-- No two tokens have ids that are written alike. -/
theorem nodup_known (h : Sheet known ps) : known.Nodup := by
  rw [h.known_eq]
  refine List.pairwise_map.2 ((List.pairwise_map.1 h.nodup_ids).imp_of_mem fun hp hq hne e => hne ?_)
  have hmp := (List.mem_filter.1 hp).1
  have hmq := (List.mem_filter.1 hq).1
  have hidp := ofText?_of_fits (h.fits _ hmp) (h.counts hmp)
  have hidq := ofText?_of_fits (h.fits _ hmq) (h.counts hmq)
  rw [e, hidq] at hidp
  exact (Option.some.inj hidp).symm

/-- The rows of a canonical sentence can be taken in. -/
theorem readable (h : Sheet known ps) : Readable known ps := ⟨fun _ hp => h.counts hp, h.fits, h.known_eq, h.nodup_known⟩

end Sheet

/-! ## Taking rows in -/

/-- The surface word of a row. -/
def multiword? : Row × RowId → Option Multiword
  | (row, .span start stop) => some { start := start, stop := stop, form := row.form, columns := row.tail }
  | _ => none

/-- The surface word of a row spans positions if its id counts. -/
theorem counts_of_multiword? {p : Row × RowId} {m : Multiword} (hm : multiword? p = some m) (hc : p.2.Counts) : m.Counts := by
  obtain ⟨row, id⟩ := p
  cases id with
  | span start stop =>
    cases hm
    obtain ⟨hstart, hstop⟩ := hc
    exact ⟨Int.natCast_pos.2 hstart, Int.ofNat_le.2 hstop⟩
  | ordinary n => cases hm
  | elided host n => cases hm

/-- The row of a token is taken in behind the others. -/
theorem add_token {s : Roster} {row : Row} {id : RowId} (hid : RowId.ofText? row.id = some id) (ht : id.isToken)
    (hnew : row.id ∉ s.tokens.map (·.1.id)) : s.add row = .ok { s with tokens := s.tokens ++ [(row, id)] } := by
  have hany : s.tokens.any (·.1.id == row.id) = false := by
    rw [List.any_eq_false]
    exact fun p hp e => hnew (List.mem_map.2 ⟨p, hp, by simpa using e⟩)
  unfold Roster.add
  rw [hid]
  cases id with
  | span start stop => cases ht
  | ordinary n => simp [hany]
  | elided host n => simp [hany]

/-- The row of a surface word is taken in behind the others. -/
theorem add_span {s : Roster} {row : Row} {start stop : Nat} (hid : RowId.ofText? row.id = some (.span start stop))
    (hle : start ≤ stop) :
    s.add row = .ok { s with
      multiwords := s.multiwords ++ [{ start := start, stop := stop, form := row.form, columns := row.tail }] } := by
  unfold Roster.add
  rw [hid]
  exact if_neg (Nat.not_lt.2 hle)

/-- Rows are taken in one after the other, if their ids can be read and no token has the id of another one. -/
theorem foldlM_add (s : Roster) (ps : List (Row × RowId)) (hid : ∀ p ∈ ps, RowId.ofText? p.1.id = some p.2)
    (hcounts : ∀ p ∈ ps, p.2.Counts) (hnodup : ((s.tokens ++ ps.filter (·.2.isToken)).map (·.1.id)).Nodup) :
    (ps.map (·.1)).foldlM Roster.add s =
      .ok { tokens := s.tokens ++ ps.filter (·.2.isToken), multiwords := s.multiwords ++ ps.filterMap multiword? } := by
  induction ps generalizing s with
  | nil => simp [pure, Except.pure]
  | cons p ps ih =>
    obtain ⟨row, id⟩ := p
    obtain ⟨hp, hids⟩ := List.forall_mem_cons.1 hid
    obtain ⟨hc, hcount⟩ := List.forall_mem_cons.1 hcounts
    rw [List.map_cons, List.foldlM_cons]
    by_cases ht : id.isToken
    · have hfilter : ((row, id) :: ps).filter (·.2.isToken) = (row, id) :: ps.filter (·.2.isToken) := List.filter_cons_of_pos ht
      have hnone : multiword? (row, id) = none := by
        cases id with
        | span start stop => cases ht
        | ordinary n => rfl
        | elided host n => rfl
      rw [hfilter] at hnodup ⊢
      have hnew : row.id ∉ s.tokens.map (·.1.id) := by
        rw [List.map_append, List.nodup_append] at hnodup
        exact fun hm => hnodup.2.2 _ hm row.id (List.mem_map_of_mem (List.mem_cons_self ..)) rfl
      rw [add_token hp ht hnew, List.filterMap_cons_none hnone]
      refine (ih { s with tokens := s.tokens ++ [(row, id)] } hids hcount (by simpa using hnodup)).trans ?_
      simp
    · have hfilter : ((row, id) :: ps).filter (·.2.isToken) = ps.filter (·.2.isToken) := List.filter_cons_of_neg ht
      rw [hfilter] at hnodup ⊢
      cases id with
      | span start stop =>
        rw [add_span hp hc.2]
        refine (ih { s with multiwords := s.multiwords ++ [_] } hids hcount hnodup).trans ?_
        simp [multiword?]
      | ordinary n => exact absurd rfl ht
      | elided host n => exact absurd rfl ht

/-- All rows are taken in that can be. -/
theorem Readable.foldlM_add {known : List String} {ps : List (Row × RowId)} (h : Readable known ps) :
    (ps.map (·.1)).foldlM Roster.add {} =
      .ok { tokens := ps.filter (·.2.isToken), multiwords := ps.filterMap multiword? } := by
  have hnodup := h.nodup_known
  rw [h.known_eq] at hnodup
  exact Conllu.foldlM_add {} ps (fun p hp => ofText?_of_fits (h.fits p hp) (h.counts p hp)) h.counts hnodup

/-! ## Indices -/

/-- No number is above a maximum in which it is counted. -/
theorem le_foldl_max {n : Nat} {ns : List Nat} {m : Nat} (h : n ≤ m ∨ n ∈ ns) : n ≤ ns.foldl max m := by
  induction ns generalizing m with
  | nil => simpa using h
  | cons k ns ih =>
    refine ih ?_
    rcases h with h | h
    · exact Or.inl (Nat.le_trans h (Nat.le_max_left m k))
    · rcases List.mem_cons.1 h with rfl | h
      · exact Or.inl (Nat.le_max_right m n)
      · exact Or.inr h

/-- The first free index is above the numbers of the ordinary tokens. -/
theorem lt_firstFree {s : Roster} {row : Row} {n : Nat} (h : (row, .ordinary n) ∈ s.tokens) : n < s.firstFree :=
  Nat.lt_succ_of_le (le_foldl_max (Or.inr (List.mem_map.2 ⟨_, h, rfl⟩)))

variable {free : Nat} {ts : List (Row × RowId)}

/-- Indices are given to all tokens, in order. -/
theorem map_indexRows (free : Nat) (ts : List (Row × RowId)) : (indexRows free ts).map (fun e => (e.1, e.2.1)) = ts := by
  induction ts generalizing free with
  | nil => rfl
  | cons p ts ih =>
    obtain ⟨row, id⟩ := p
    cases id with
    | ordinary n => simp [indexRows, ih]
    | span start stop => simp [indexRows, ih]
    | elided host n => simp [indexRows, ih]

/-- An ordinary token has its number as index, and an elided one an index that was free. -/
theorem index_of_mem (hts : ∀ p ∈ ts, p.2.isToken) {e : Row × RowId × Int} (he : e ∈ indexRows free ts) :
    (∃ n : Nat, e.2.1 = .ordinary n ∧ e.2.2 = n) ∨ e.2.1.isOrdinary = false ∧ (free : Int) ≤ e.2.2 := by
  induction ts generalizing free with
  | nil => cases he
  | cons p ts ih =>
    obtain ⟨row, id⟩ := p
    obtain ⟨ht, hrest⟩ := List.forall_mem_cons.1 hts
    cases id with
    | ordinary n =>
      rcases List.mem_cons.1 he with rfl | he
      · exact Or.inl ⟨n, rfl, rfl⟩
      · exact ih hrest he
    | span start stop => cases ht
    | elided host n =>
      rcases List.mem_cons.1 he with rfl | he
      · exact Or.inr ⟨rfl, Int.le_refl _⟩
      · refine (ih hrest he).imp_right fun hlt => ⟨hlt.1, ?_⟩
        have := hlt.2
        omega

/-- No two tokens have one index, if what is free is above the numbers of the ordinary tokens. -/
theorem nodup_indexRows (hts : ∀ p ∈ ts, p.2.isToken) (hfree : ∀ n, .ordinary n ∈ ts.map (·.2) → n < free)
    (hnodup : ((ts.map (·.2)).filter (·.isOrdinary)).Nodup) : ((indexRows free ts).map (·.2.2)).Nodup := by
  induction ts generalizing free with
  | nil => exact List.nodup_nil
  | cons p ts ih =>
    have hmem : ∀ {free} {e : Row × RowId × Int}, e ∈ indexRows free ts → e.2.1 ∈ ts.map (·.2) := by
      intro free e he
      rw [← map_indexRows free ts, List.map_map]
      exact List.mem_map.2 ⟨e, he, rfl⟩
    obtain ⟨row, id⟩ := p
    obtain ⟨ht, hrest⟩ := List.forall_mem_cons.1 hts
    rw [List.map_cons] at hfree hnodup
    cases id with
    | ordinary n =>
      rw [List.filter_cons_of_pos rfl, List.nodup_cons] at hnodup
      refine List.nodup_cons.2 ⟨fun hm => ?_, ih hrest (fun m hm => hfree m (List.mem_cons_of_mem _ hm)) hnodup.2⟩
      obtain ⟨e, he, hindex⟩ := List.mem_map.1 hm
      have hindex : e.2.2 = (n : Int) := hindex
      have hn := hfree n (List.mem_cons_self ..)
      -- A later token with this index is the same ordinary token, or its index is one that was free.
      rcases index_of_mem hrest he with ⟨m, hid, hnumber⟩ | ⟨-, hle⟩
      · have hmn : m = n := by omega
        exact hnodup.1 (List.mem_filter.2 ⟨hmn ▸ hid ▸ hmem he, rfl⟩)
      · omega
    | span start stop => cases ht
    | elided host n =>
      rw [List.filter_cons_of_neg Bool.false_ne_true] at hnodup
      refine List.nodup_cons.2 ⟨fun hm => ?_, ih hrest (fun m hm => ?_) hnodup⟩
      · obtain ⟨e, he, hindex⟩ := List.mem_map.1 hm
        have hindex : e.2.2 = (free : Int) := hindex
        rcases index_of_mem hrest he with ⟨m, hid, hnumber⟩ | ⟨-, hle⟩
        · have hm := hfree m (List.mem_cons_of_mem _ (hid ▸ hmem he))
          omega
        · omega
      · exact Nat.lt_succ_of_lt (hfree m (List.mem_cons_of_mem _ hm))

/-- The index of each token can be found by its id. -/
theorem exists_locate (hids : (ts.map (·.1.id)).Nodup) :
    ∃ locate : String → Int, indexRows free ts = ts.map (fun p => (p.1, p.2, locate p.1.id)) ∧
      ∀ p ∈ ts, ((indexRows free ts).map fun e => (e.1.id, e.2.2)).lookup p.1.id = some (locate p.1.id) := by
  let indices : Indices := (indexRows free ts).map fun e => (e.1.id, e.2.2)
  let locate (id : String) : Int := (indices.lookup id).getD 0
  have hkeys : (indices.map (·.1)).Nodup := by
    rw [← map_indexRows free ts, List.map_map] at hids
    rwa [List.map_map]
  have hlookup : ∀ e ∈ indexRows free ts, indices.lookup e.1.id = some e.2.2 := fun e he =>
    (Pairs.lookup_eq_some_iff_mem hkeys).2 (List.mem_map.2 ⟨e, he, rfl⟩)
  have hlocate : ∀ e ∈ indexRows free ts, locate e.1.id = e.2.2 := fun e he => by
    rw [show locate e.1.id = (indices.lookup e.1.id).getD 0 from rfl, hlookup e he]
    rfl
  have hindex : indexRows free ts = ts.map fun p => (p.1, p.2, locate p.1.id) := by
    conv => rhs; rw [← map_indexRows free ts, List.map_map]
    refine ((List.map_congr_left fun e he => ?_).trans (List.map_id _)).symm
    rw [Function.comp_apply, hlocate e he]
    rfl
  refine ⟨locate, hindex, fun p hp => hlookup (p.1, p.2, locate p.1.id) ?_⟩
  rw [hindex]
  exact List.mem_map.2 ⟨p, hp, rfl⟩

/-- The rows of tokens, each with an index of its own that belongs to its id in writing. -/
structure Indexed (locate : String → Int) (ts : List (Row × RowId)) : Prop where
  isToken : ∀ p ∈ ts, p.2.isToken
  indices : (ts.map fun p => locate p.1.id).Nodup
  ordinary : ∀ (row : Row) (n : Nat), (row, .ordinary n) ∈ ts → locate row.id = n

/-- Tokens that are taken in get indices, if no two have the same id in writing and no two ordinary ones the same number. -/
theorem Roster.exists_indexed {s : Roster} (htoken : ∀ p ∈ s.tokens, p.2.isToken) (hids : (s.tokens.map (·.1.id)).Nodup)
    (hnodup : ((s.tokens.map (·.2)).filter (·.isOrdinary)).Nodup) :
    ∃ locate, Indexed locate s.tokens ∧ indexRows s.firstFree s.tokens = s.tokens.map (fun p => (p.1, p.2, locate p.1.id)) ∧
      ∀ p ∈ s.tokens, ((indexRows s.firstFree s.tokens).map fun e => (e.1.id, e.2.2)).lookup p.1.id = some (locate p.1.id) := by
  have hfree : ∀ n, .ordinary n ∈ s.tokens.map (·.2) → n < s.firstFree := by
    intro n hn
    obtain ⟨⟨row, id⟩, hp, hid⟩ := List.mem_map.1 hn
    cases hid
    exact lt_firstFree hp
  obtain ⟨locate, hindex, hlookup⟩ := exists_locate hids
  refine ⟨locate, ⟨htoken, ?_, ?_⟩, hindex, hlookup⟩
  · have hdistinct := nodup_indexRows htoken hfree hnodup
    rwa [hindex, List.map_map] at hdistinct
  · intro row n hp
    have he : (row, .ordinary n, locate row.id) ∈ indexRows s.firstFree s.tokens := by
      rw [hindex]
      exact List.mem_map.2 ⟨_, hp, rfl⟩
    rcases index_of_mem htoken he with ⟨m, hm, hlocate⟩ | ⟨hno, -⟩
    · cases hm
      exact hlocate
    · cases hno

/-- The rows of tokens, each of which is found by its id in writing. -/
structure Located (known : List String) (locate : String → Int) (ts : List (Row × RowId)) : Prop where
  isToken : ∀ p ∈ ts, p.2.isToken
  counts : ∀ p ∈ ts, p.2.Counts
  fits : ∀ p ∈ ts, p.1.Fits known p.2
  known_eq : known = ts.map (·.1.id)
  indices : (ts.map fun p => locate p.1.id).Nodup
  ordinary : ∀ (row : Row) (n : Nat), (row, .ordinary n) ∈ ts → locate row.id = n

/-- The rows of the tokens of a canonical sentence, one before the other. -/
structure Listed (known : List String) (locate : String → Int) (ts : List (Row × RowId)) : Prop extends
    Located known locate ts where
  ascending : ts.Pairwise fun p q => p.2.Before q.2

/-- The tokens of rows that are taken in get indices. -/
theorem Readable.exists_located {known : List String} {ps : List (Row × RowId)} (h : Readable known ps) {s : Roster}
    (hs : s.tokens = ps.filter (·.2.isToken)) :
    ∃ locate, Located known locate s.tokens ∧
      indexRows s.firstFree s.tokens = s.tokens.map (fun p => (p.1, p.2, locate p.1.id)) ∧
      ∀ p ∈ s.tokens, ((indexRows s.firstFree s.tokens).map fun e => (e.1.id, e.2.2)).lookup p.1.id = some (locate p.1.id) := by
  have hmem : ∀ p ∈ s.tokens, p ∈ ps ∧ p.2.isToken := fun p hp => List.mem_filter.1 (hs ▸ hp)
  have hknown : known = s.tokens.map (·.1.id) := hs ▸ h.known_eq
  have hnodup : (s.tokens.map (·.2)).Nodup := by
    have hids : s.tokens.map (·.1.id) = (s.tokens.map (·.2)).map RowId.text := by
      rw [List.map_map]
      exact List.map_congr_left fun p hp => (h.fits p (hmem p hp).1).named
    exact List.Nodup.of_map RowId.text (hids ▸ hknown ▸ h.nodup_known)
  obtain ⟨locate, hindexed, hindex, hlookup⟩ := s.exists_indexed (fun p hp => (hmem p hp).2) (hknown ▸ h.nodup_known) (hnodup.filter _)
  exact ⟨locate, ⟨hindexed.isToken, fun p hp => h.counts p (hmem p hp).1, fun p hp => h.fits p (hmem p hp).1, hknown,
    hindexed.indices, hindexed.ordinary⟩, hindex, hlookup⟩

end Conllu

end Treebank
