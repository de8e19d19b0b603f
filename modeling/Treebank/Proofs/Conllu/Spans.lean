import Treebank.Proofs.Conllu.Distinct
import Treebank.Proofs.Conllu.Presented
import Treebank.Proofs.Conllu.SurfaceRows

/-!
# Surface words of edited graphs

A surface word keeps the positions at which it starts and stops while tokens are deleted and added. Its row still runs from the first to
the last of its tokens that are left exactly if each of these ends was kept (`EndKept`): the token stands there alone, or nothing stands
there any more and the token has just that number. So a sentence is read back with its surface words exactly if all ends were kept and no
form is empty (`keepsSpans_iff_of_edits`).
-/

namespace Treebank

/-- Whether two surface words share no position. -/
def Multiword.Apart (m m' : Multiword) : Prop := m.stop < m'.start ∨ m'.stop < m.start

instance (m m' : Multiword) : Decidable (m.Apart m') := inferInstanceAs (Decidable (_ ∨ _))

instance : Std.Symm Multiword.Apart := ⟨fun _ _ => Or.symm⟩

namespace Conllu

variable {g g' : Graph} {t u f l : Token} {m m' : Multiword} {ts : List Token} {position : Int}

/-! ## Tokens that are left -/

/-- The tokens of a surface word of `g` that are left in `g'`, in linear order. -/
def survivors (g g' : Graph) (m : Multiword) : List Token :=
  g'.tokensInOrder.filter fun t => g.tokenList.contains t && decide (m.start ≤ t.position ∧ t.position ≤ m.stop)

theorem mem_survivors : t ∈ survivors g g' m ↔ t ∈ g'.tokensInOrder ∧ t ∈ g.tokenList ∧ m.start ≤ t.position ∧ t.position ≤ m.stop := by
  simp [survivors]

/-- Whether a token stands between tokens of a surface word that are left. -/
def Within (g g' : Graph) (m : Multiword) (t : Token) : Prop :=
  ∃ a ∈ survivors g g' m, ∃ b ∈ survivors g g' m, (Token.cmp a t).isLE ∧ (Token.cmp t b).isLE

/-- The first of some tokens in order stands behind none of them. -/
theorem isLE_of_mem_head? (hts : ts.Pairwise fun t u => Token.cmp t u = .lt) (hf : f ∈ ts.head?) (ht : t ∈ ts) : (Token.cmp f t).isLE := by
  obtain ⟨rest, rfl⟩ := List.head?_eq_some_iff.1 hf
  rcases List.mem_cons.1 ht with rfl | ht
  · exact Std.ReflCmp.isLE_rfl
  · rw [(List.pairwise_cons.1 hts).1 t ht]
    rfl

/-- The last of some tokens in order stands before none of them. -/
theorem isLE_of_mem_getLast? (hts : ts.Pairwise fun t u => Token.cmp t u = .lt) (hl : l ∈ ts.getLast?) (ht : t ∈ ts) :
    (Token.cmp t l).isLE := by
  obtain ⟨before, rfl⟩ := List.getLast?_eq_some_iff.1 hl
  rcases List.mem_append.1 ht with ht | ht
  · rw [(List.pairwise_append.1 hts).2.2 t ht l (List.mem_singleton_self l)]
    rfl
  · rw [List.mem_singleton.1 ht]
    exact Std.ReflCmp.isLE_rfl

/-- The tokens of a surface word that are left stand in order. -/
theorem pairwise_survivors (hg : g'.Sound) : (survivors g g' m).Pairwise fun t u => Token.cmp t u = .lt :=
  hg.pairwise_tokensInOrder.filter _

/-- If a token of a surface word is left, there are a first and a last one. -/
theorem exists_ends (h : survivors g g' m ≠ []) : ∃ f l, (survivors g g' m).head? = some f ∧ (survivors g g' m).getLast? = some l := by
  obtain ⟨f, hf⟩ := Option.ne_none_iff_exists'.1 (mt List.head?_eq_none_iff.1 h)
  obtain ⟨l, hl⟩ := Option.ne_none_iff_exists'.1 (mt List.getLast?_eq_none_iff.1 h)
  exact ⟨f, l, hf, hl⟩

/-- A token stands between tokens of a surface word that are left exactly if it stands between the first and the last of them. -/
theorem within_iff (hg : g'.Sound) (hf : f ∈ (survivors g g' m).head?) (hl : l ∈ (survivors g g' m).getLast?) :
    Within g g' m t ↔ (Token.cmp f t).isLE ∧ (Token.cmp t l).isLE := by
  have horder : (survivors g g' m).Pairwise fun t u => Token.cmp t u = .lt := pairwise_survivors hg
  constructor
  · rintro ⟨a, ha, b, hb, hat, htb⟩
    exact ⟨Std.TransCmp.isLE_trans (isLE_of_mem_head? horder hf ha) hat, Std.TransCmp.isLE_trans htb (isLE_of_mem_getLast? horder hl hb)⟩
  · rintro ⟨hft, htl⟩
    exact ⟨f, List.mem_of_mem_head? hf, l, List.mem_of_getLast? hl, hft, htl⟩

/-- No token stands between those of two surface words that share no position. -/
theorem eq_of_within (hapart : g.multiwords.Pairwise Multiword.Apart) (hm : m ∈ g.multiwords) (hm' : m' ∈ g.multiwords)
    (h : Within g g' m t) (h' : Within g g' m' t) : m = m' := by
  have hbounds : ∀ {m}, Within g g' m t → m.start ≤ t.position ∧ t.position ≤ m.stop := by
    rintro m ⟨a, ha, b, hb, hat, htb⟩
    obtain ⟨-, -, hstart, -⟩ := mem_survivors.1 ha
    obtain ⟨-, -, -, hstop⟩ := mem_survivors.1 hb
    exact ⟨hstart.trans (Token.position_le_of_cmp hat), (Token.position_le_of_cmp htb).trans hstop⟩
  by_contra hne
  have := hbounds h
  have := hbounds h'
  rcases hapart.forall hm hm' hne with hlt | hlt <;> omega

/-! ## Ends of surface words -/

/-- Whether the end of a surface word at a position is still the end at a token: no other token stands there, or none at all and the token
has come to have just that number. -/
def EndKept (g : Graph) (position : Int) (t : Token) : Prop :=
  (t.position = position ∧ ∀ u ∈ g.tokensInOrder, u.position = position → u = t) ∨
    (∀ u ∈ g.tokensInOrder, u.position ≠ position) ∧ numberOf g t = position

instance (g : Graph) (position : Int) (t : Token) : Decidable (EndKept g position t) := inferInstanceAs (Decidable (_ ∨ _))

/-- What is left of a graph as it was read, and what was added to it. -/
structure Edited (g g' : Graph) : Prop extends Edit.TreeEdited g g' where
  pristine : Pristine g

namespace Edited

/-- No token is elided. -/
theorem isEmptyNode (h : Edited g g') (ht : t ∈ g'.tokensInOrder) : t.isEmptyNode = false := by
  simp [Token.isEmptyNode, h.emptyIndices t (g'.perm_tokensInOrder.mem_iff.1 ht)]

/-- No two tokens are given one id. -/
theorem not_clash (h : Edited g g') (ht : t ∈ g'.tokensInOrder) : ¬ Clash g' t u := fun hclash => by
  have := hclash.2.1
  rw [h.isEmptyNode ht] at this
  cases this

/-- The surface words are those that were read. -/
theorem multiwords_eq (h : Edited g g') : g'.multiwords = g.multiwords := congrArg Prod.snd h.header

/-- The tokens at a position are all ordinary. -/
theorem mem_ordinaryAt (h : Edited g g') : t ∈ ordinaryAt g' position ↔ t ∈ g'.tokensInOrder ∧ t.position = position := by
  rw [ordinaryAt, List.mem_filter]
  refine and_congr_right fun ht => ?_
  simp [h.isEmptyNode ht]

/-- No other token at the position of one that was read stands before it: those were added. -/
theorem eq_of_isLE (h : Edited g g') (ht : t ∈ g'.tokensInOrder) (hold : t ∈ g.tokenList) (hu : u ∈ g'.tokensInOrder)
    (hposition : u.position = t.position) (hle : (Token.cmp u t).isLE) : u = t := by
  have ht' := g'.perm_tokensInOrder.mem_iff.1 ht
  have hu' := g'.perm_tokensInOrder.mem_iff.1 hu
  by_cases hread : u ∈ g.tokenList
  · have hindex : u.index = t.index := by
      rw [← (h.pristine.placed u hread).1, ← (h.pristine.placed t hold).1, hposition]
    exact List.inj_on_of_nodup_map h.presentable.sound.nodup_indices hu ht hindex
  · have habove := h.above t ht' hold u hu' hread
    have hindex := Token.index_le_of_cmp hle hposition ((h.emptyIndices u hu').trans (h.emptyIndices t ht').symm)
    omega

/-- The end of a surface word is written as a token that was read exactly if it was kept. -/
theorem endOf_eq_idOf_iff (h : Edited g g') (ht : t ∈ g'.tokensInOrder) (hold : t ∈ g.tokenList) (hposition : 0 < position) :
    endOf g' position = idOf (idsOf g') t.index ↔ EndKept g' position t := by
  have hsound := h.presentable.sound
  rw [endOf_eq]
  cases hlast : (ordinaryAt g' position).getLast? with
  | none =>
    have hnone : ∀ u ∈ g'.tokensInOrder, u.position ≠ position := fun u hu hposition => by
      have hm := h.mem_ordinaryAt.2 ⟨hu, hposition⟩
      rw [List.getLast?_eq_none_iff.1 hlast] at hm
      cases hm
    obtain ⟨n, rfl⟩ := Int.eq_ofNat_of_zero_le hposition.le
    have hcounts : (RowId.ordinary n).Counts := Int.natCast_pos.1 hposition
    have hcounts' : (RowId.ordinary (numberOf g' t)).Counts := Nat.succ_pos _
    rw [idOf_eq_numberOf hsound ht (h.isEmptyNode ht)]
    show (RowId.ordinary n).text = (RowId.ordinary (numberOf g' t)).text ↔ _
    rw [text_eq_text_iff hcounts hcounts', RowId.ordinary.injEq]
    constructor
    · rintro rfl
      exact .inr ⟨hnone, rfl⟩
    · rintro (⟨hat, -⟩ | ⟨-, hnumber⟩)
      · exact absurd hat (hnone t ht)
      · exact (Int.ofNat_inj.1 hnumber).symm
  | some u =>
    obtain ⟨hu, hat⟩ := h.mem_ordinaryAt.1 (List.mem_of_getLast? hlast)
    show idOf (idsOf g') u.index = idOf (idsOf g') t.index ↔ _
    rw [idOf_eq_iff hsound hu ht, or_iff_left (h.not_clash hu)]
    constructor
    · rintro rfl
      refine .inl ⟨hat, fun v hv hvat => h.eq_of_isLE ht hold hv (hvat.trans hat.symm) ?_⟩
      exact isLE_of_mem_getLast? (hsound.pairwise_tokensInOrder.filter _) hlast (h.mem_ordinaryAt.2 ⟨hv, hvat⟩)
    · rintro (⟨-, hall⟩ | ⟨hnone, -⟩)
      · exact hall u hu hat
      · exact absurd hat (hnone u hu)

/-- The row of a surface word runs from one token that was read to another exactly if both ends were kept. -/
theorem spanId_eq_iff_endKept (h : Edited g g') (hm : m ∈ g.multiwords) (hf : f ∈ survivors g g' m) (hl : l ∈ survivors g g' m) :
    spanId g' m = idOf (idsOf g') f.index ++ "-" ++ idOf (idsOf g') l.index ↔ EndKept g' m.start f ∧ EndKept g' m.stop l := by
  have hcounts := (h.pristine.words m hm).1
  obtain ⟨hf, hfold, -⟩ := mem_survivors.1 hf
  obtain ⟨hl, hlold, -⟩ := mem_survivors.1 hl
  rw [spanId_eq_append_iff h.presentable.sound hcounts, h.endOf_eq_idOf_iff hf hfold hcounts.1,
    h.endOf_eq_idOf_iff hl hlold (hcounts.1.trans_le hcounts.2)]

/-- The ends of a surface word in writing are the numbers of its tokens. -/
theorem text_span (h : Edited g g') (hf : f ∈ g'.tokensInOrder) (hl : l ∈ g'.tokensInOrder) :
    idOf (idsOf g') f.index ++ "-" ++ idOf (idsOf g') l.index = (RowId.span (numberOf g' f) (numberOf g' l)).text := by
  rw [idOf_eq_numberOf h.presentable.sound hf (h.isEmptyNode hf), idOf_eq_numberOf h.presentable.sound hl (h.isEmptyNode hl)]
  rfl

end Edited

/-! ## Reading back -/

/-- The form of the surface word that spans a position, if no other one with another form does. -/
theorem spanning_eq {ms : List Multiword} (hm : m ∈ ms) (h : m.start ≤ position ∧ position ≤ m.stop)
    (hall : ∀ m' ∈ ms, m'.start ≤ position ∧ position ≤ m'.stop → m'.form = m.form) : spanning ms position = m.form := by
  rw [spanning]
  cases hfind : ms.reverse.find? fun m => m.start ≤ position && position ≤ m.stop with
  | none =>
    have := List.find?_eq_none.1 hfind m (List.mem_reverse.2 hm)
    simp [h] at this
  | some m' =>
    have hspans : m'.start ≤ position ∧ position ≤ m'.stop := by simpa using List.find?_some hfind
    exact hall m' (List.mem_reverse.1 (List.mem_of_find?_eq_some hfind)) hspans

/-- There is no form where no surface word spans a position. -/
theorem spanning_eq_empty {ms : List Multiword} (h : ∀ m ∈ ms, ¬ (m.start ≤ position ∧ position ≤ m.stop)) : spanning ms position = "" := by
  have hnone : (ms.reverse.find? fun m => m.start ≤ position && position ≤ m.stop) = none :=
    List.find?_eq_none.2 fun m hm => by simpa using h m (List.mem_reverse.1 hm)
  rw [spanning, hnone]
  rfl

/-- Whether the row of every surface word of `g` runs in `g'` from the first of its tokens that are left to the last. -/
def SpansRun (g g' : Graph) : Prop :=
  ∀ m ∈ g.multiwords, ∃ f ∈ (survivors g g' m).head?, ∃ l ∈ (survivors g g' m).getLast?,
    spanId g' m = idOf (idsOf g') f.index ++ "-" ++ idOf (idsOf g') l.index

namespace Edited

/-- Where a token is left of each surface word, they run from the first to the last of these exactly if all ends were kept. -/
theorem spansRun_iff (h : Edited g g') (hleft : ∀ m ∈ g.multiwords, survivors g g' m ≠ []) :
    SpansRun g g' ↔ ∀ m ∈ g.multiwords, (∀ f ∈ (survivors g g' m).head?, EndKept g' m.start f) ∧
      ∀ l ∈ (survivors g g' m).getLast?, EndKept g' m.stop l := by
  refine forall₂_congr fun m hm => ?_
  obtain ⟨f, l, hf, hl⟩ := exists_ends (hleft m hm)
  have hends := h.spanId_eq_iff_endKept hm (List.mem_of_mem_head? hf) (List.mem_of_getLast? hl)
  simpa [hf, hl] using hends

/-- A surface word that runs from its first to its last token is written with the numbers of these. -/
theorem exists_numbers (h : Edited g g') (hends : SpansRun g g') (hm : m ∈ g.multiwords) :
    ∃ f ∈ (survivors g g' m).head?, ∃ l ∈ (survivors g g' m).getLast?,
      (RowId.span (numberOf g' f) (numberOf g' l)).Counts ∧ spanId g' m = (RowId.span (numberOf g' f) (numberOf g' l)).text := by
  obtain ⟨f, hf, l, hl, hid⟩ := hends m hm
  obtain ⟨hfirst, -⟩ := mem_survivors.1 (List.mem_of_mem_head? hf)
  obtain ⟨hlast, -⟩ := mem_survivors.1 (List.mem_of_getLast? hl)
  have hle : numberOf g' f ≤ numberOf g' l := (numberOf_le_iff hlast (h.isEmptyNode hlast)).2
    (isLE_of_mem_head? (pairwise_survivors h.presentable.sound) hf (List.mem_of_getLast? hl))
  exact ⟨f, hf, l, hl, ⟨Nat.succ_pos _, hle⟩, hid.trans (h.text_span hfirst hlast)⟩

/-- Where surface words run from the first to the last of their tokens, the graph is read back. -/
theorem readback (h : Edited g g') (hwords : g.multiwords ≠ []) (hends : SpansRun g g') : Readback g' := by
  have hsound := h.presentable.sound
  refine ⟨h.presentable, ?_, ?_, (nodup_knownIds_iff hsound).2 fun t ht u _ => h.not_clash ht, fun m hm => ?_, fun m hm => ?_⟩
  · rw [show g'.comments = g.comments from congrArg Prod.fst h.header]
    exact h.pristine.comments
  · obtain ⟨m, hm⟩ := List.exists_mem_of_ne_nil _ hwords
    obtain ⟨f, hf, -⟩ := hends m hm
    exact List.ne_nil_of_mem (mem_survivors.1 (List.mem_of_mem_head? hf)).1
  · exact (h.pristine.words m (h.multiwords_eq ▸ hm)).2
  · obtain ⟨f, -, l, -, hcounts, hid⟩ := h.exists_numbers hends (h.multiwords_eq ▸ hm)
    exact ⟨_, _, hcounts, hid⟩

/-- A surface word in writing spans the number of a token exactly if the token stands between the tokens of the word that are left. -/
theorem spans_iff_within (h : Edited g g') (hends : SpansRun g g') (ht : t ∈ g'.tokensInOrder) (hm : m ∈ g.multiwords) {a b : Nat}
    (hcounts : (RowId.span a b).Counts) (hid : spanId g' m = (RowId.span a b).text) :
    ((a : Int) ≤ numberOf g' t ∧ (numberOf g' t : Int) ≤ b) ↔ Within g g' m t := by
  obtain ⟨f, hf, l, hl, hcounts', hspan⟩ := h.exists_numbers hends hm
  obtain ⟨hlast, -⟩ := mem_survivors.1 (List.mem_of_getLast? hl)
  rw [hid, text_eq_text_iff hcounts hcounts'] at hspan
  obtain ⟨rfl, rfl⟩ := RowId.span.inj hspan
  rw [within_iff h.presentable.sound hf hl, Int.ofNat_le, Int.ofNat_le, numberOf_le_iff ht (h.isEmptyNode ht),
    numberOf_le_iff hlast (h.isEmptyNode hlast)]

/-- Read back, the tokens between those of a surface word have its form, and the others have none. -/
theorem exists_forms (h : Edited g g') (hapart : g.multiwords.Pairwise Multiword.Apart) (hwords : g.multiwords ≠ []) (hends : SpansRun g g')
    (validate : Bool) (sink : Sink) :
    ∃ r sink', (read validate (writeGraph g')).run.run sink = (.ok [r], sink') ∧ r.Sound ∧
      ∀ t ∈ g'.tokensInOrder, ∃ u ∈ r.tokenList, u.index = numberOf g' t ∧
        (∀ m ∈ g.multiwords, Within g g' m t → u.spanForm = column m.form) ∧
        ((∀ m ∈ g.multiwords, ¬ Within g g' m t) → u.spanForm = "") := by
  obtain ⟨r, sink', hread, hsound, htokens, hmultiwords⟩ := exists_read_writeGraph (h.readback hwords hends) validate sink
  refine ⟨r, sink', hread, hsound, fun t ht => ?_⟩
  obtain ⟨u, hu, hindex, hform⟩ := htokens t ht (h.isEmptyNode ht)
  refine ⟨u, hu, hindex, fun m hm hwithin => ?_, fun hnone => ?_⟩
  · obtain ⟨a, b, hcounts, hid⟩ := (h.readback hwords hends).spans m (h.multiwords_eq ▸ hm)
    have hmem : { start := a, stop := b, form := column m.form, columns := m.columns } ∈ r.multiwords :=
      (hmultiwords _).2 ⟨m, h.multiwords_eq ▸ hm, a, b, hcounts, hid, rfl⟩
    rw [hform]
    refine spanning_eq hmem ((h.spans_iff_within hends ht hm hcounts hid).2 hwithin) fun m' hm' hspans => ?_
    obtain ⟨m₁, hm₁, a₁, b₁, hcounts₁, hid₁, rfl⟩ := (hmultiwords m').1 hm'
    have hm₁ := h.multiwords_eq ▸ hm₁
    rw [eq_of_within hapart hm₁ hm ((h.spans_iff_within hends ht hm₁ hcounts₁ hid₁).1 hspans) hwithin]
  · rw [hform]
    refine spanning_eq_empty fun m' hm' hspans => ?_
    obtain ⟨m, hm, a, b, hcounts, hid, rfl⟩ := (hmultiwords m').1 hm'
    have hm := h.multiwords_eq ▸ hm
    exact hnone m hm ((h.spans_iff_within hends ht hm hcounts hid).1 hspans)

end Edited

/-! ## Surface words that are kept -/

/-- Whether `g'`, which was made of `g`, has kept the surface words of `g`. -/
structure KeepsSpans (g g' : Graph) : Prop where
  /-- The row of a surface word runs from the id of the first of its tokens that are left to the id of the last. -/
  ends : ∀ m ∈ g.multiwords, ∀ f ∈ (survivors g g' m).head?, ∀ l ∈ (survivors g g' m).getLast?,
    idColumn (spanRow (idsByPosition (idsOf g') g'.tokensInOrder) m) = idOf (idsOf g') f.index ++ "-" ++ idOf (idsOf g') l.index
  /-- The sentence is read back. Then the tokens between these have the form of the surface word, and tokens outside of all of them have
  none. -/
  forms : ∀ validate sink, ∃ r sink', (read validate (writeGraph g')).run.run sink = (.ok [r], sink') ∧
    ∀ t ∈ g'.tokensInOrder, ∃ u ∈ r.tokenList, u.index = numberOf g' t ∧
      (∀ m ∈ g.multiwords, Within g g' m t → u.spanForm = m.form) ∧ ((∀ m ∈ g.multiwords, ¬ Within g g' m t) → u.spanForm = "")

namespace Edited

/-- The row of a surface word begins with its id. -/
theorem idColumn_eq (h : Edited g g') (hm : m ∈ g.multiwords) :
    idColumn (spanRow (idsByPosition (idsOf g') g'.tokensInOrder) m) = spanId g' m :=
  idColumn_spanRow h.presentable.sound (h.pristine.words m hm).1

/-- A graph that has kept its surface words has their rows run from the first to the last of their tokens. -/
theorem spansRun_of_keepsSpans (h : Edited g g') (hleft : ∀ m ∈ g.multiwords, survivors g g' m ≠ []) (hkeeps : KeepsSpans g g') :
    SpansRun g g' := by
  intro m hm
  obtain ⟨f, l, hf, hl⟩ := exists_ends (hleft m hm)
  exact ⟨f, hf, l, hl, h.idColumn_eq hm ▸ hkeeps.ends m hm f hf l hl⟩

/-- A form that is empty is written as a blank column, which is read as what it is. So it is not kept. -/
theorem form_ne_of_keepsSpans (h : Edited g g') (hapart : g.multiwords.Pairwise Multiword.Apart) (hends : SpansRun g g')
    (hkeeps : KeepsSpans g g') (hm : m ∈ g.multiwords) : m.form ≠ "" := by
  intro hform
  obtain ⟨r, _, hread, hsound, hcolumns⟩ := h.exists_forms hapart (List.ne_nil_of_mem hm) hends false {}
  obtain ⟨r', _, hread', hforms⟩ := hkeeps.forms false {}
  rw [hread, Prod.mk.injEq, Except.ok.injEq, List.singleton_inj] at hread'
  obtain ⟨f, hf, -⟩ := hends m hm
  have hfirst := List.mem_of_mem_head? hf
  have hwithin : Within g g' m f := ⟨f, hfirst, f, hfirst, Std.ReflCmp.isLE_rfl, Std.ReflCmp.isLE_rfl⟩
  obtain ⟨u, hu, hindex, hcolumn, -⟩ := hcolumns f (mem_survivors.1 hfirst).1
  obtain ⟨u', hu', hindex', hkept, -⟩ := hforms f (mem_survivors.1 hfirst).1
  rw [← hread'.1] at hu'
  have heq : u = u' := List.inj_on_of_nodup_map hsound.nodup_indices (r.perm_tokensInOrder.mem_iff.2 hu)
    (r.perm_tokensInOrder.mem_iff.2 hu') (hindex.trans hindex'.symm)
  have hno := (hcolumn m hm hwithin).symm.trans (heq ▸ hkept m hm hwithin)
  rw [hform] at hno
  exact absurd hno (by decide)

/-- A graph whose surface words run from the first to the last of their tokens has kept them, if no form is empty. -/
theorem keepsSpans (h : Edited g g') (hapart : g.multiwords.Pairwise Multiword.Apart) (hwords : g.multiwords ≠ []) (hends : SpansRun g g')
    (hforms : ∀ m ∈ g.multiwords, m.form ≠ "") : KeepsSpans g g' := by
  refine ⟨fun m hm f hf l hl => ?_, fun validate sink => ?_⟩
  · obtain ⟨f', hf', l', hl', hid⟩ := hends m hm
    rw [h.idColumn_eq hm, Option.mem_unique hf hf', Option.mem_unique hl hl', hid]
  · obtain ⟨r, sink', hread, -, hcolumns⟩ := h.exists_forms hapart hwords hends validate sink
    refine ⟨r, sink', hread, fun t ht => ?_⟩
    obtain ⟨u, hu, hindex, hwithin, houtside⟩ := hcolumns t ht
    refine ⟨u, hu, hindex, fun m hm hbetween => ?_, houtside⟩
    rw [hwithin m hm hbetween, column, if_neg (hforms m hm)]

end Edited

/-! ## Sentences that are read and edited -/

section Sentences

variable {validate : Bool} {text : String} {sink sink' : Sink} {graphs : List Graph} {bindings : Pattern.Bindings} {es : List Edit}
  {w : Edit.Workspace}

/-- A graph without elided tokens that is read and edited is what is left of it, and what was added. -/
theorem edited_of_read (hread : (read validate text).run.run sink = (.ok graphs, sink')) (hg : g ∈ graphs) (hunelided : g.isUnelided)
    (hes : ∀ e ∈ es, e.isTreeEdit ∧ e.FitsColumns) (h : Edit.applyAll { graph := g, bindings := bindings } es = .ok w) :
    Edited g w.graph := by
  have hpristine := pristine_of_read hread hg hunelided
  have hstart : Edit.TreeEdited g g := .refl hpristine.presentable fun t ht => (hpristine.placed t ht).2.1
  exact ⟨hstart.applyAll (w := { graph := g, bindings := bindings }) (fun t ht => (hpristine.placed t ht).2.2) hes h, hpristine⟩

/-- Let a sentence be read that has surface words, which share no position, and no elided tokens, and let subtrees be deleted and dependents
be added so that a token is left of each surface word. The sentence can be written. It keeps its surface words exactly if no form is empty
and every end was kept: the first token that is left stands alone where the surface word starts, or nothing stands there and it has just
that number; and so does the last where the surface word stops. -/
theorem keepsSpans_iff_of_edits (hread : (read validate text).run.run sink = (.ok graphs, sink')) (hg : g ∈ graphs)
    (hunelided : g.isUnelided) (hwords : g.multiwords ≠ []) (hapart : g.multiwords.Pairwise Multiword.Apart)
    (hes : ∀ e ∈ es, e.isTreeEdit ∧ e.FitsColumns) (h : Edit.applyAll { graph := g, bindings := bindings } es = .ok w)
    (hleft : ∀ m ∈ g.multiwords, survivors g w.graph m ≠ []) :
    writeGraph? w.graph = .ok (writeGraph w.graph) ∧ (KeepsSpans g w.graph ↔ ∀ m ∈ g.multiwords, m.form ≠ "" ∧
      (∀ f ∈ (survivors g w.graph m).head?, EndKept w.graph m.start f) ∧
      ∀ l ∈ (survivors g w.graph m).getLast?, EndKept w.graph m.stop l) := by
  have hedited := edited_of_read hread hg hunelided hes h
  refine ⟨writeGraph?_eq_ok hedited.presentable.sound, fun hkeeps m hm => ?_, fun hkept => ?_⟩
  · have hends := hedited.spansRun_of_keepsSpans hleft hkeeps
    exact ⟨hedited.form_ne_of_keepsSpans hapart hends hkeeps hm, (hedited.spansRun_iff hleft).1 hends m hm⟩
  · have hends := (hedited.spansRun_iff hleft).2 fun m hm => (hkept m hm).2
    exact hedited.keepsSpans hapart hwords hends fun m hm => (hkept m hm).1

/-- A sentence with a surface word of two tokens. -/
def contracted : String :=
  "1 a _ _ _ _ 0 root _ _\n2-3 du _ _ _ _ _ _ _ _\n2 de _ _ _ _ 1 x _ _\n3 le _ _ _ _ 1 y _ _\n4 c _ _ _ _ 1 z _ _\n"

/-- So it is where the first token of a surface word is deleted: the second one has then come to have its number. -/
theorem keepsSpans_after_delete_first :
    ∃ g sink' w, (read false contracted).run.run {} = (.ok [g], sink') ∧
      Edit.applyAll { graph := g, bindings := { nodes := [("x", 2), ("y", 4)] } }
        [.delete "x", .addDependent "y" "v" [("word", "b")] none .one] = .ok w ∧
      (writtenLines w.graph).map idColumn = ["1", "2-2", "2", "3", "4"] ∧ KeepsSpans g w.graph := by
  obtain ⟨g, sink', w, hread, hw, hids, hunelided, hwords, hapart, hleft, hkept⟩ :
      ∃ g sink' w, (read false contracted).run.run {} = (.ok [g], sink') ∧
        Edit.applyAll { graph := g, bindings := { nodes := [("x", 2), ("y", 4)] } }
          [.delete "x", .addDependent "y" "v" [("word", "b")] none .one] = .ok w ∧
        (writtenLines w.graph).map idColumn = ["1", "2-2", "2", "3", "4"] ∧ g.isUnelided ∧ g.multiwords ≠ [] ∧
        g.multiwords.Pairwise Multiword.Apart ∧ (∀ m ∈ g.multiwords, survivors g w.graph m ≠ []) ∧
        ∀ m ∈ g.multiwords, m.form ≠ "" ∧ (∀ f ∈ (survivors g w.graph m).head?, EndKept w.graph m.start f) ∧
          ∀ l ∈ (survivors g w.graph m).getLast?, EndKept w.graph m.stop l := exists_edited_of_read (by decide +kernel)
  have hattributes : FitsColumn "v" ∧ ∀ a ∈ [("word", "b")], FitsColumn a.2 := by decide
  have hes : ∀ e ∈ [Edit.delete "x", .addDependent "y" "v" [("word", "b")] none .one], e.isTreeEdit ∧ e.FitsColumns :=
    List.forall_mem_cons.2 ⟨⟨rfl, trivial⟩, List.forall_mem_singleton.2 ⟨rfl, hattributes⟩⟩
  exact ⟨g, sink', w, hread, hw, hids,
    (keepsSpans_iff_of_edits hread (List.mem_singleton_self g) hunelided hwords hapart hes hw hleft).2.2 hkept⟩

/-- Where the second one is deleted, the surface word stops in writing at the third token of the sentence, which is then read back with
its form. -/
theorem not_keepsSpans_after_delete_last :
    ∃ g sink' w, (read false contracted).run.run {} = (.ok [g], sink') ∧
      Edit.applyAll { graph := g, bindings := { nodes := [("x", 3)] } } [.delete "x"] = .ok w ∧
      g.isUnelided ∧ g.multiwords.map (fun m => (m.start, m.stop, m.form)) = [(2, 3, "du")] ∧
      g.multiwords.map (fun m => (survivors g w.graph m).map fun t => idOf (idsOf w.graph) t.index) = [["2"]] ∧
      g.multiwords.map (fun m => idColumn (spanRow (idsByPosition (idsOf w.graph) w.graph.tokensInOrder) m)) = ["2-3"] ∧
      ((read false (writeGraph w.graph)).run.run {}).1.toOption.map (fun rs => rs.map fun r =>
        r.tokensInOrder.map fun t => (t.word, t.spanForm)) = some [[("a", ""), ("de", "du"), ("c", "du")]] ∧ ¬ KeepsSpans g w.graph := by
  obtain ⟨g, sink', w, hread, hw, hunelided, hwords, hleft, hlines, hforms⟩ :
      ∃ g sink' w, (read false contracted).run.run {} = (.ok [g], sink') ∧
        Edit.applyAll { graph := g, bindings := { nodes := [("x", 3)] } } [.delete "x"] = .ok w ∧
        g.isUnelided ∧ g.multiwords.map (fun m => (m.start, m.stop, m.form)) = [(2, 3, "du")] ∧
        g.multiwords.map (fun m => (survivors g w.graph m).map fun t => idOf (idsOf w.graph) t.index) = [["2"]] ∧
        g.multiwords.map (fun m => idColumn (spanRow (idsByPosition (idsOf w.graph) w.graph.tokensInOrder) m)) = ["2-3"] ∧
        ((read false (writeGraph w.graph)).run.run {}).1.toOption.map (fun rs => rs.map fun r =>
          r.tokensInOrder.map fun t => (t.word, t.spanForm)) = some [[("a", ""), ("de", "du"), ("c", "du")]] :=
    exists_edited_of_read (by decide +kernel)
  refine ⟨g, sink', w, hread, hw, hunelided, hwords, hleft, hlines, hforms, fun hkeeps => ?_⟩
  obtain ⟨m, hm, hline⟩ := List.map_eq_singleton_iff.1 hlines
  rw [hm, List.map_singleton, List.singleton_inj] at hleft
  obtain ⟨t, hsurvivors, hid⟩ := List.map_eq_singleton_iff.1 hleft
  have hends := hkeeps.ends m (hm ▸ List.mem_singleton_self m) t (by rw [hsurvivors]; rfl) t (by rw [hsurvivors]; rfl)
  rw [hline, hid] at hends
  exact absurd hends (by decide)

end Sentences

end Conllu

end Treebank
