import Treebank.Graph.Basic
import Mathlib.Algebra.Ring.Nat
import Mathlib.Data.List.Forall2
import Mathlib.Data.List.Induction
import Mathlib.Data.List.Nodup

/-!
# Laws of keyed lists

What reading a key gives after entries were added, changed or dropped, for lists of pairs that are read with `List.lookup`.
-/

namespace Treebank.Pairs

/-- The keys of a list whose values are changed. -/
theorem keys_map {α β γ : Type} (l : List (α × β)) (f : α → β → γ) :
    (l.map fun (i, b) => (i, f i b)).map (·.1) = l.map (·.1) := by
  rw [List.map_map]
  rfl

variable {α β γ : Type} [BEq α]

/-- Reading looks at the first entry, then at the others. -/
theorem lookup_cons_eq (k j : α) (b : β) (l : List (α × β)) :
    ((j, b) :: l).lookup k = if k == j then some b else l.lookup k := by
  rw [List.lookup_cons]
  cases k == j <;> rfl

variable [LawfulBEq α]

/-- What is read stands in the list. -/
theorem mem_of_lookup_eq {l : List (α × β)} {k : α} {b : β} (h : l.lookup k = some b) : (k, b) ∈ l := by
  obtain ⟨l₁, l₂, rfl, -⟩ := List.lookup_eq_some_iff.1 h
  simp

/-- Readings that stand for each other are both nothing, or are two values that do. -/
theorem rel_cases {Q : β → γ → Prop} {b? : Option β} {c? : Option γ} (h : Option.Rel Q b? c?) :
    (b? = none ∧ c? = none) ∨ ∃ b c, b? = some b ∧ c? = some c ∧ Q b c := by
  cases h with
  | none => exact .inl ⟨rfl, rfl⟩
  | some hbc => exact .inr ⟨_, _, rfl, rfl, hbc⟩

omit [LawfulBEq α] in
/-- Reading a key of lists with the same keys, whose values stand for each other. -/
theorem rel_lookup {Q : β → γ → Prop} {l : List (α × β)} {l' : List (α × γ)}
    (h : List.Forall₂ (fun x y => x.1 = y.1 ∧ Q x.2 y.2) l l') (k : α) : Option.Rel Q (l.lookup k) (l'.lookup k) := by
  induction h with
  | nil => exact .none
  | @cons x y l l' hxy _ ih =>
    obtain ⟨i, b⟩ := x
    obtain ⟨j, c⟩ := y
    obtain ⟨rfl, hbc⟩ := hxy
    rw [lookup_cons_eq, lookup_cons_eq]
    split
    · exact .some hbc
    · exact ih

/-- If every key stands once, what stands in the list is read. -/
theorem lookup_eq_some_iff_mem {l : List (α × β)} (hl : (l.map (·.1)).Nodup) {k : α} {b : β} :
    l.lookup k = some b ↔ (k, b) ∈ l := by
  refine ⟨mem_of_lookup_eq, fun h => ?_⟩
  induction l with
  | nil => simp at h
  | cons p l ih =>
    obtain ⟨j, c⟩ := p
    rw [List.map_cons, List.nodup_cons] at hl
    rcases List.mem_cons.1 h with e | hm
    · cases e
      simp
    · have hne : (k == j) = false := by
        rw [beq_eq_false_iff_ne]
        rintro rfl
        exact hl.1 (List.mem_map.2 ⟨_, hm, rfl⟩)
      rw [List.lookup_cons, hne]
      exact ih hl.2 hm

/-- A key can be read exactly if it is a key of the list. -/
theorem isSome_lookup_iff {l : List (α × β)} {k : α} : (l.lookup k).isSome ↔ k ∈ l.map (·.1) := by
  rw [List.lookup_isSome_iff]
  simp only [List.mem_map]
  constructor
  · rintro ⟨p, hp, hk⟩
    exact ⟨p, hp, (eq_of_beq hk).symm⟩
  · rintro ⟨p, hp, rfl⟩
    exact ⟨p, hp, by simp⟩

/-- Nothing is read exactly if the key is no key of the list. -/
theorem lookup_eq_none_iff_notMem {l : List (α × β)} {k : α} : l.lookup k = none ↔ k ∉ l.map (·.1) := by
  rw [← isSome_lookup_iff, Bool.not_eq_true, Option.isSome_eq_false_iff, Option.isNone_iff_eq_none]

/-- Dropping a key drops it alone. -/
theorem lookup_filter_ne (l : List (α × β)) (k j : α) :
    (l.filter (·.1 != k)).lookup j = if j == k then none else l.lookup j := by
  induction l with
  | nil => simp
  | cons p l ih =>
    obtain ⟨i, b⟩ := p
    by_cases hik : i = k
    · subst hik
      by_cases hji : j = i
      · subst hji
        simp [ih]
      · simp [lookup_cons_eq, ih, hji]
    · by_cases hji : j = i
      · subst hji
        simp [hik]
      · simp [lookup_cons_eq, ih, hik, hji]

/-- Looking an entry up that is made of an item is finding the item. -/
theorem lookup_map_pair (l : List γ) (key : γ → α) (value : γ → β) (k : α) :
    (l.map fun c => (key c, value c)).lookup k = (l.find? (key · == k)).map value := by
  induction l with
  | nil => rfl
  | cons c l ih =>
    rw [List.map_cons, lookup_cons_eq, List.find?_cons, BEq.comm, ih]
    cases key c == k <;> rfl

/-- Changing the values under their keys changes what is read. -/
theorem lookup_map (l : List (α × β)) (f : α → β → γ) (k : α) :
    (l.map fun (i, b) => (i, f i b)).lookup k = (l.lookup k).map (f k) := by
  induction l with
  | nil => rfl
  | cons p l ih =>
    obtain ⟨i, b⟩ := p
    by_cases h : k = i
    · subst h
      simp
    · simp [lookup_cons_eq, h, ih]

/-- Reading a list whose values were looked up elsewhere, where every key stands once. -/
theorem lookup_filterMap {l : List (α × β)} (hl : (l.map (·.1)).Nodup) (f : β → Option γ) (k : α) :
    (l.filterMap fun (i, b) => (f b).map fun c => (i, c)).lookup k = (l.lookup k).bind f := by
  induction l with
  | nil => rfl
  | cons p l ih =>
    obtain ⟨i, b⟩ := p
    rw [List.map_cons, List.nodup_cons] at hl
    have ih := ih hl.2
    by_cases h : k = i
    · subst h
      have hn : l.lookup k = none := lookup_eq_none_iff_notMem.2 hl.1
      rw [hn, Option.bind_none] at ih
      cases hf : f b with
      | some c => simp [hf]
      | none => simpa [hf] using ih
    · have hk : (k == i) = false := beq_eq_false_iff_ne.2 h
      rw [lookup_cons_eq, hk, if_neg Bool.false_ne_true, ← ih]
      cases hf : f b with
      | some c => simp [hf, lookup_cons_eq, hk]
      | none => simp [hf]

omit [BEq α] [LawfulBEq α] in
/-- The keys that are kept in a list whose values were looked up elsewhere. -/
theorem keys_filter_filterMap (l : List (α × β)) (f : β → Option γ) (p : α × γ → Bool) :
    ((l.filterMap fun (i, b) => (f b).map fun c => (i, c)).filter p).map (·.1) =
      (l.filter fun (i, b) => (f b).any fun c => p (i, c)).map (·.1) := by
  induction l with
  | nil => rfl
  | cons q l ih =>
    obtain ⟨i, b⟩ := q
    rw [List.filterMap_cons]
    cases hf : f b with
    | none => simp [hf, ih]
    | some c => by_cases hp : p (i, c) <;> simp [hf, hp, ih]

omit [BEq α] [LawfulBEq α] in
/-- Dropping keys before or after the values are looked up elsewhere. -/
theorem filterMap_filter_keys (l : List (α × β)) (f : β → Option γ) (p : α → Bool) :
    (l.filter (p ·.1)).filterMap (fun (i, b) => (f b).map fun c => (i, c)) =
      (l.filterMap fun (i, b) => (f b).map fun c => (i, c)).filter (p ·.1) := by
  induction l with
  | nil => rfl
  | cons q l ih =>
    obtain ⟨i, b⟩ := q
    by_cases hp : p i <;> cases hf : f b <;> simp [hp, hf, ih]

/-- No key stands with two values. -/
def Functional (l : List (α × β)) : Prop := ∀ p ∈ l, ∀ q ∈ l, p.1 = q.1 → p.2 = q.2

omit [BEq α] [LawfulBEq α] in
/-- A list in which every key stands once is functional. -/
theorem functional_of_nodup {l : List (α × β)} (hl : (l.map (·.1)).Nodup) : Functional l := fun _ hp _ hq e =>
  congrArg Prod.snd (List.inj_on_of_nodup_map hl hp hq e)

omit [BEq α] [LawfulBEq α] in
/-- A functional list with one more entry is functional exactly if its key had that value or none. -/
theorem functional_concat_iff {l : List (α × β)} (hl : Functional l) (k : α) (b : β) :
    Functional (l ++ [(k, b)]) ↔ ∀ c, (k, c) ∈ l → c = b := by
  constructor
  · intro h c hc
    exact h (k, c) (List.mem_append_left _ hc) (k, b) (by simp) rfl
  · intro h p hp q hq e
    simp only [List.mem_append, List.mem_singleton] at hp hq
    rcases hp with hp' | rfl <;> rcases hq with hq' | rfl
    · exact hl p hp' q hq' e
    · obtain rfl : p.1 = k := e
      exact h p.2 hp'
    · obtain rfl : k = q.1 := e
      exact (h q.2 hq').symm
    · rfl

/-- In a functional list from which repeated entries are left out, what stands in the list is read. -/
theorem lookup_eraseDups_eq_some_iff [BEq β] [LawfulBEq β] {l : List (α × β)} (hl : Functional l) {k : α} {b : β} :
    l.eraseDups.lookup k = some b ↔ (k, b) ∈ l := by
  refine ⟨fun h => List.mem_eraseDups.1 (mem_of_lookup_eq h), fun h => ?_⟩
  have hk : (l.eraseDups.lookup k).isSome :=
    isSome_lookup_iff.2 (List.mem_map_of_mem (f := Prod.fst) (List.mem_eraseDups.2 h))
  obtain ⟨c, hc⟩ := Option.isSome_iff_exists.1 hk
  exact hc.trans (congrArg some (hl (k, c) (List.mem_eraseDups.1 (mem_of_lookup_eq hc)) (k, b) h rfl))

omit [BEq α] [LawfulBEq α] in
/-- A member at the end is left out if it stands in the list before. -/
theorem eraseDups_concat [BEq γ] [LawfulBEq γ] (l : List γ) (c : γ) :
    (l ++ [c]).eraseDups = if l.contains c then l.eraseDups else l.eraseDups ++ [c] := by
  rw [List.eraseDups_append]
  by_cases h : l.contains c <;> simp_all [List.removeAll, List.eraseDups_cons]

omit [BEq α] [LawfulBEq α] in
/-- A list from which repeated members are left out holds each once. -/
theorem nodup_eraseDups [BEq γ] [LawfulBEq γ] (l : List γ) : l.eraseDups.Nodup := by
  induction l using List.reverseRecOn with
  | nil => exact List.nodup_nil
  | append_singleton l c ih =>
    rw [eraseDups_concat]
    split
    · exact ih
    · rename_i h
      rw [← List.concat_eq_append]
      exact ih.concat (by simpa using h)

/-- A key that is looked up with success is there. -/
theorem has_of_lookup {l : List (α × β)} {k : α} {b : β} (h : l.lookup k = some b) : has l k = true :=
  List.any_eq_true.2 ⟨_, mem_of_lookup_eq h, beq_self_eq_true k⟩

omit [LawfulBEq α] in
/-- Setting a key that is there leaves the keys as they are. -/
theorem keys_put_of_has {l : List (α × β)} {k : α} (h : has l k = true) (b : β) : keys (put l k b) = keys l := by
  rw [put, if_pos h, keys, List.map_map]
  refine List.map_congr_left fun p _ => ?_
  simp only [Function.comp]
  split <;> rfl

/-- A key that is there stands among the keys. -/
theorem has_iff_mem {l : List (α × β)} {k : α} : has l k = true ↔ k ∈ keys l := by
  rw [has, List.any_eq_true, keys, List.mem_map]
  constructor
  · rintro ⟨p, hp, hk⟩
    exact ⟨p, hp, eq_of_beq hk⟩
  · rintro ⟨p, hp, rfl⟩
    exact ⟨p, hp, beq_self_eq_true _⟩

/-- A new key goes to the end. -/
theorem put_of_notMem {l : List (α × β)} {k : α} (h : k ∉ keys l) (b : β) : put l k b = l ++ [(k, b)] := by
  rw [put, if_neg (mt has_iff_mem.1 h)]

/-- The next of keys of which each stands once is new among those before it. -/
theorem put_of_nodup {l l' : List (α × β)} {k : α} {b : β} (h : (keys (l ++ (k, b) :: l')).Nodup) : put l k b = l ++ [(k, b)] := by
  refine put_of_notMem (fun hmem => ?_) b
  rw [keys, List.map_append] at h
  exact List.disjoint_of_nodup_append h hmem (List.mem_cons_self ..)

omit [BEq α] [LawfulBEq α] in
/-- A key that stands once stands between entries with other keys. -/
theorem exists_split_of_mem {l : List (α × β)} (hl : (keys l).Nodup) {k : α} {b : β} (h : (k, b) ∈ l) :
    ∃ l₁ l₂, l = l₁ ++ (k, b) :: l₂ ∧ k ∉ keys (l₁ ++ l₂) := by
  obtain ⟨l₁, l₂, rfl⟩ := List.append_of_mem h
  refine ⟨l₁, l₂, rfl, ?_⟩
  rw [keys, List.map_append, List.map_cons, List.nodup_middle] at hl
  rw [keys, List.map_append]
  exact (List.nodup_cons.1 hl).1

/-- Setting a key that is there puts its new value in place of the old one. -/
theorem put_middle {l₁ l₂ : List (α × β)} {k : α} (h : k ∉ keys (l₁ ++ l₂)) (b c : β) :
    put (l₁ ++ (k, b) :: l₂) k c = l₁ ++ (k, c) :: l₂ := by
  have hother : ∀ l : List (α × β), (∀ p ∈ l, p.1 ∈ keys (l₁ ++ l₂)) → (l.map fun (i, d) => if i == k then (i, c) else (i, d)) = l := by
    intro l hl
    refine (List.map_congr_left fun p hp => if_neg fun hk => h ?_).trans (List.map_id l)
    rw [← eq_of_beq hk]
    exact hl p hp
  rw [put, if_pos (has_iff_mem.2 (by simp [keys])), List.map_append, List.map_cons,
    hother l₁ fun p hp => List.mem_map_of_mem (List.mem_append_left _ hp),
    hother l₂ fun p hp => List.mem_map_of_mem (List.mem_append_right _ hp)]
  exact congrArg (fun p => l₁ ++ p :: l₂) (if_pos (beq_self_eq_true k))

/-- Setting the last key replaces its value. -/
theorem put_concat {l : List (α × β)} {k : α} (h : k ∉ keys l) (b c : β) : put (l ++ [(k, b)]) k c = l ++ [(k, c)] := by
  have hmiddle : k ∉ keys (l ++ []) := by rwa [List.append_nil]
  exact put_middle hmiddle b c

/-- Setting a key leaves every key once. -/
theorem nodup_keys_put {l : List (α × β)} (h : (keys l).Nodup) (k : α) (b : β) : (keys (put l k b)).Nodup := by
  by_cases hk : k ∈ keys l
  · rwa [keys_put_of_has (has_iff_mem.2 hk)]
  · rw [put_of_notMem hk, keys, List.map_append, List.map_singleton, ← List.concat_eq_append]
    exact h.concat hk

/-- Setting a key takes away what it held, if anything, and adds its value. -/
theorem sum_put_le (f : α × β → Nat) {l : List (α × β)} (hl : (keys l).Nodup) (k : α) (b : β) :
    ((put l k b).map f).sum ≤ (l.map f).sum + f (k, b) := by
  by_cases h : k ∈ keys l
  · obtain ⟨⟨j, c⟩, hp, rfl⟩ := List.mem_map.1 h
    obtain ⟨l₁, l₂, rfl, hk⟩ := exists_split_of_mem hl hp
    rw [put_middle hk]
    simp only [List.map_append, List.map_cons, List.sum_append, List.sum_cons]
    omega
  · rw [put_of_notMem h]
    simp

/-- Setting a key that is there takes away what it held and adds its value. -/
theorem sum_put_of_lookup (f : α × β → Nat) {l : List (α × β)} (hl : (keys l).Nodup) {k : α} {c : β} (h : l.lookup k = some c) (b : β) :
    ((put l k b).map f).sum + f (k, c) = (l.map f).sum + f (k, b) := by
  obtain ⟨l₁, l₂, rfl, hk⟩ := exists_split_of_mem hl (mem_of_lookup_eq h)
  rw [put_middle hk]
  simp only [List.map_append, List.map_cons, List.sum_append, List.sum_cons]
  omega

/-- What is there after a key was set was there, or is its value. -/
theorem mem_of_mem_put {l : List (α × β)} {k : α} {b : β} {p : α × β} (h : p ∈ put l k b) : p = (k, b) ∨ p ∈ l := by
  unfold put at h
  split at h
  · obtain ⟨q, hq, rfl⟩ := List.mem_map.1 h
    by_cases hk : q.1 == k
    · exact .inl (by simp [eq_of_beq hk])
    · exact .inr (by simpa [hk] using hq)
  · rcases List.mem_append.1 h with h | h
    · exact .inr h
    · exact .inl (List.mem_singleton.1 h)

/-- Setting a key sets it alone. -/
theorem lookup_put (l : List (α × β)) (k : α) (b : β) (j : α) :
    (put l k b).lookup j = if j == k then some b else l.lookup j := by
  unfold put
  split
  · rename_i h
    have e : (fun p : α × β => if p.1 == k then (p.1, b) else (p.1, p.2)) = fun p => (p.1, if p.1 == k then b else p.2) := by
      funext p
      split <;> rfl
    have := lookup_map l (fun i c => if i == k then b else c) j
    simp only [e] at this ⊢
    rw [this]
    by_cases hj : j = k
    · subst hj
      obtain ⟨p, hp, hk⟩ := List.any_eq_true.1 h
      have : (l.lookup j).isSome := isSome_lookup_iff.2 (List.mem_map.2 ⟨p, hp, eq_of_beq hk⟩)
      obtain ⟨c, hc⟩ := Option.isSome_iff_exists.1 this
      simp [hc]
    · cases l.lookup j <;> simp [hj]
  · rename_i h
    rw [List.lookup_append]
    by_cases hj : j = k
    · subst hj
      have : l.lookup j = none := by
        rw [lookup_eq_none_iff_notMem]
        intro hm
        obtain ⟨p, hp, rfl⟩ := List.mem_map.1 hm
        exact h (List.any_eq_true.2 ⟨p, hp, by simp⟩)
      simp [this]
    · cases l.lookup j <;> simp [hj]

end Treebank.Pairs

namespace Treebank.Graph

variable {α : Type}

/-- The keys of a list of entries with one more. -/
theorem mem_keys_putEntry (index : Int) (a : α) (l : List (Int × α)) (i : Int) :
    i ∈ (putEntry index a l).map (·.1) ↔ i = index ∨ i ∈ l.map (·.1) := by
  induction l with
  | nil => simp [putEntry]
  | cons p l ih =>
    simp only [putEntry]
    split
    · simp
    · rw [List.map_cons, List.mem_cons, ih, List.map_cons, List.mem_cons]
      tauto

/-- Putting an entry in permutes. -/
theorem perm_putEntry (index : Int) (a : α) (l : List (Int × α)) : (putEntry index a l).Perm ((index, a) :: l) := by
  induction l with
  | nil => exact List.Perm.refl _
  | cons p l ih =>
    obtain ⟨j, b⟩ := p
    simp only [putEntry]
    split
    · exact List.Perm.refl _
    · exact (ih.cons _).trans (List.Perm.swap _ _ l)

/-- An entry that is put in keeps the others apart. -/
theorem ascending_putEntry (index : Int) (a : α) {l : List (Int × α)} (hl : (l.map (·.1)).Pairwise (· < ·))
    (hn : index ∉ l.map (·.1)) : ((putEntry index a l).map (·.1)).Pairwise (· < ·) := by
  induction l with
  | nil => simp [putEntry]
  | cons p l ih =>
    obtain ⟨j, b⟩ := p
    simp only [List.map_cons, List.pairwise_cons, List.mem_cons, not_or] at hl hn
    simp only [putEntry]
    split
    · rename_i hlt
      simp only [List.map_cons, List.pairwise_cons, List.mem_cons]
      refine ⟨?_, hl⟩
      rintro i (rfl | hi)
      · exact hlt
      · have := hl.1 i hi
        omega
    · rename_i hge
      simp only [List.map_cons, List.pairwise_cons]
      refine ⟨fun i hi => ?_, ih hl.2 hn.2⟩
      rcases (mem_keys_putEntry index a l i).1 hi with rfl | hi
      · have := hn.1
        omega
      · exact hl.1 i hi

/-- A new entry is read under its index, and the others as before. -/
theorem lookup_putEntry (index : Int) (a : α) {l : List (Int × α)} (hn : index ∉ l.map (·.1)) (i : Int) :
    (putEntry index a l).lookup i = if i = index then some a else l.lookup i := by
  induction l with
  | nil =>
    by_cases h : i = index <;> simp [putEntry, Pairs.lookup_cons_eq, h]
  | cons p l ih =>
    obtain ⟨j, b⟩ := p
    simp only [List.map_cons, List.mem_cons, not_or] at hn
    simp only [putEntry]
    split
    · by_cases h : i = index <;> simp [Pairs.lookup_cons_eq, h]
    · rw [Pairs.lookup_cons_eq, ih hn.2, Pairs.lookup_cons_eq]
      by_cases h : i = index
      · subst h
        simp [hn.1]
      · simp [h]

/-- An entry that is put in before its value is looked up elsewhere. -/
theorem filterMap_putEntry {β : Type} {f : α → Option β} {a : α} {b : β} (hb : f a = some b) (index : Int)
    {l : List (Int × α)} (hf : ∀ p ∈ l, (f p.2).isSome) :
    (putEntry index a l).filterMap (fun (i, x) => (f x).map fun y => (i, y)) =
      putEntry index b (l.filterMap fun (i, x) => (f x).map fun y => (i, y)) := by
  induction l with
  | nil => simp [putEntry, hb]
  | cons p l ih =>
    obtain ⟨j, x⟩ := p
    obtain ⟨y, hy⟩ := Option.isSome_iff_exists.1 (hf (j, x) (List.mem_cons_self ..))
    simp only [putEntry, List.filterMap_cons, hy, Option.map_some]
    split
    · simp [hb, hy]
    · rw [List.filterMap_cons]
      simp only [hy, Option.map_some]
      rw [ih fun q hq => hf q (List.mem_cons_of_mem _ hq)]

/-- Indices that ascend stand once each. -/
theorem nodup_of_ascending {l : List Int} (h : l.Pairwise (· < ·)) : l.Nodup := h.imp (by omega)

end Treebank.Graph
