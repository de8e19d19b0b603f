import Treebank.Proofs.Checked.Surgery
import Mathlib.Data.List.Perm.Subperm
import Mathlib.Data.List.Sigma

/-!
# Chains of surgeries

A step is the choice of one of the surgeries and of one of the matches of its pattern, whose edits succeed; a chain is steps one after
the other. Exhaustive surgery makes one graph for each chain that has no more steps than there are rounds (`exhaust_enumerates`). Its results
are the ends of the chains in a listing, `chainsFrom`, that is laid out as the rounds are: first the chains of one step, then those that go
on from where these lead. So every chain is listed (`mem_chainsFrom`), and by its choices none is listed twice (`nodup_chainsFrom`), and
nothing that is recorded on the way makes a difference (`chains_results`).
-/

namespace Treebank.Surgery

open Edit

/-! ## Chains -/

/-- What is chosen in a step: one of the surgeries, and one of the matches of its pattern, each by its number. -/
structure Choice where
  surgery : Nat
  place : Nat
  deriving DecidableEq

/-- A step from a graph: the edits of the surgery that is chosen, in a copy of the graph and where the chosen match is, succeed, and lead to
another graph. -/
def Step (surgeries : List Surgery) (c : Choice) (g h : Graph) : Prop :=
  ∃ s, surgeries[c.surgery]? = some s ∧ ∃ m, (Matcher.plain s.pattern g).all[c.place]? = some m ∧
    ∃ w, applyAll { graph := g.copy, bindings := m.bindings } s.edits = .ok w ∧ w.graph = h

/-- Steps one after the other. -/
inductive Chain (surgeries : List Surgery) : List Choice → Graph → Graph → Prop
  | nil (g : Graph) : Chain surgeries [] g g
  | cons {c : Choice} {cs : List Choice} {g h k : Graph} :
      Step surgeries c g h → Chain surgeries cs h k → Chain surgeries (c :: cs) g k

variable {surgeries : List Surgery} {s : Surgery} {g h : Graph} {c : Choice} {cs : List Choice} {rounds : Nat}

/-! ## Listings -/

/-- The graphs that a surgery makes of a graph, each with the number of its match. -/
def madeFrom (s : Surgery) (g : Graph) : List (Nat × Graph) :=
  (Matcher.plain s.pattern g).all.zipIdx.filterMap fun p => (s.operate g p.1).toOption.map fun h => (p.2, h)

/-- The steps from a graph, each with the graph to which it leads. -/
def stepsFrom (surgeries : List Surgery) (g : Graph) : List (Choice × Graph) :=
  surgeries.zipIdx.flatMap fun p => (p.1.madeFrom g).map fun made => (⟨p.2, made.1⟩, made.2)

/-- Chains from a graph: a step, and then one of the given chains from the graph to which it leads. -/
def stepThen (surgeries : List Surgery) (chains : Graph → List (List Choice × Graph)) (g : Graph) : List (List Choice × Graph) :=
  (stepsFrom surgeries g).flatMap fun step => (chains step.2).map fun chain => (step.1 :: chain.1, chain.2)

/-- The chain without steps. -/
def stay (g : Graph) : List (List Choice × Graph) := [([], g)]

/-- The chains from a graph that have one step and up to some more, each with the graph to which it leads. -/
def chainsFrom (surgeries : List Surgery) : Nat → Graph → List (List Choice × Graph)
  | 0, g => stepThen surgeries stay g
  | rounds + 1, g => stepThen surgeries stay g ++ stepThen surgeries (chainsFrom surgeries rounds) g

/-! ## What is listed -/

theorem operate_eq_ok_iff {m : Match} :
    s.operate g m = .ok h ↔ ∃ w, applyAll { graph := g.copy, bindings := m.bindings } s.edits = .ok w ∧ w.graph = h := by
  unfold operate
  rw [bind_eq_ok_iff]
  exact exists_congr fun w => and_congr Iff.rfl ⟨Except.ok.inj, congrArg _⟩

theorem mem_madeFrom {place : Nat} :
    (place, h) ∈ s.madeFrom g ↔ ∃ m, (Matcher.plain s.pattern g).all[place]? = some m ∧ s.operate g m = .ok h := by
  have hok : ∀ m, (s.operate g m).toOption = some h ↔ s.operate g m = .ok h := by
    intro m
    cases s.operate g m <;> simp [Except.toOption]
  unfold madeFrom
  simp only [List.mem_filterMap, Option.map_eq_some_iff, Prod.exists, Prod.mk.injEq, List.mem_zipIdx_iff_getElem?]
  constructor
  · rintro ⟨m, place, hm, h, hh, rfl, rfl⟩
    exact ⟨m, hm, (hok m).1 hh⟩
  · rintro ⟨m, hm, hh⟩
    exact ⟨m, place, hm, h, (hok m).2 hh, rfl, rfl⟩

/-- The steps are listed. -/
theorem mem_stepsFrom : (c, h) ∈ stepsFrom surgeries g ↔ Step surgeries c g h := by
  unfold stepsFrom Step
  simp only [← operate_eq_ok_iff, ← mem_madeFrom]
  simp only [List.mem_flatMap, List.mem_map, Prod.exists, Prod.mk.injEq, List.mem_zipIdx_iff_getElem?]
  constructor
  · rintro ⟨s, i, hs, place, h, hmade, rfl, rfl⟩
    exact ⟨s, hs, hmade⟩
  · rintro ⟨s, hs, hmade⟩
    exact ⟨s, c.surgery, hs, c.place, h, hmade, rfl, rfl⟩

theorem mem_stepThen {chains : Graph → List (List Choice × Graph)} :
    (cs, h) ∈ stepThen surgeries chains g ↔
      ∃ c rest, cs = c :: rest ∧ ∃ g₁, Step surgeries c g g₁ ∧ (rest, h) ∈ chains g₁ := by
  unfold stepThen
  simp only [List.mem_flatMap, List.mem_map, Prod.exists, Prod.mk.injEq, mem_stepsFrom]
  constructor
  · rintro ⟨c, g₁, hstep, rest, h, hrest, rfl, rfl⟩
    exact ⟨c, rest, rfl, g₁, hstep, hrest⟩
  · rintro ⟨c, rest, rfl, g₁, hstep, hrest⟩
    exact ⟨c, g₁, hstep, rest, h, hrest, rfl, rfl⟩

/-- If the chains are listed whose lengths are in some range, then so are the chains with one step more. -/
theorem mem_stepThen_iff {chains : Graph → List (List Choice × Graph)} {least most : Nat}
    (hchains : ∀ {cs g h}, (cs, h) ∈ chains g ↔ Chain surgeries cs g h ∧ least ≤ cs.length ∧ cs.length ≤ most) :
    (cs, h) ∈ stepThen surgeries chains g ↔ Chain surgeries cs g h ∧ least + 1 ≤ cs.length ∧ cs.length ≤ most + 1 := by
  simp only [mem_stepThen, hchains]
  constructor
  · rintro ⟨c, rest, rfl, g₁, hstep, hrest, hleast, hmost⟩
    exact ⟨.cons hstep hrest, Nat.succ_le_succ hleast, Nat.succ_le_succ hmost⟩
  · rintro ⟨hchain, hleast, hmost⟩
    cases hchain with
    | nil => cases hleast
    | cons hstep hrest => exact ⟨_, _, rfl, _, hstep, hrest, Nat.le_of_succ_le_succ hleast, Nat.le_of_succ_le_succ hmost⟩

theorem mem_stay : (cs, h) ∈ stay g ↔ Chain surgeries cs g h ∧ 0 ≤ cs.length ∧ cs.length ≤ 0 := by
  unfold stay
  rw [List.mem_singleton, Prod.mk.injEq]
  constructor
  · rintro ⟨rfl, rfl⟩
    exact ⟨.nil h, Nat.le_refl _, Nat.le_refl _⟩
  · rintro ⟨hchain, -, hnone⟩
    cases hchain with
    | nil => exact ⟨rfl, rfl⟩
    | cons => cases hnone

/-- The chains that are not too long are listed. -/
theorem mem_chainsFrom :
    (cs, h) ∈ chainsFrom surgeries rounds g ↔ Chain surgeries cs g h ∧ 1 ≤ cs.length ∧ cs.length ≤ rounds + 1 := by
  induction rounds generalizing cs g h with
  | zero => exact mem_stepThen_iff mem_stay
  | succ rounds ih =>
    rw [chainsFrom, List.mem_append, mem_stepThen_iff mem_stay, mem_stepThen_iff ih, ← and_or_left]
    exact and_congr Iff.rfl (by omega)

/-! ## No chain is listed twice -/

/-- Lists put together hold nothing twice, if none of them does and members tell from which one they are. -/
theorem nodup_flatMap_of_key {α β γ : Type} {l : List α} {f : α → List β} {key : α → γ} (tell : β → γ)
    (hl : (l.map key).Nodup) (hf : ∀ a ∈ l, (f a).Nodup) (htell : ∀ a ∈ l, ∀ b ∈ f a, tell b = key a) : (l.flatMap f).Nodup := by
  refine List.nodup_flatMap.2 ⟨hf, (List.pairwise_map.1 hl).imp_of_mem fun {a a'} ha ha' hne b hb hb' => hne ?_⟩
  rw [← htell a ha b hb, htell a' ha' b hb']

/-- No match of a surgery is listed twice. -/
theorem nodup_madeFrom (s : Surgery) (g : Graph) : ((s.madeFrom g).map (·.1)).Nodup := by
  refine List.pairwise_map.2 ((List.pairwise_map.1 (List.nodup_zipIdx_map_snd _)).filterMap _ ?_)
  intro p q hne made hmade made' hmade'
  obtain ⟨h, -, rfl⟩ := Option.map_eq_some_iff.1 hmade
  obtain ⟨h', -, rfl⟩ := Option.map_eq_some_iff.1 hmade'
  exact hne

/-- No step is listed twice. -/
theorem nodup_stepsFrom (surgeries : List Surgery) (g : Graph) : ((stepsFrom surgeries g).map (·.1)).Nodup := by
  unfold stepsFrom
  rw [List.map_flatMap]
  simp only [List.map_map]
  refine nodup_flatMap_of_key Choice.surgery (List.nodup_zipIdx_map_snd surgeries) (fun p _ => ?_) fun p _ c hc => ?_
  · have hplaces := List.Nodup.map (f := Choice.mk p.2) (fun _ _ h => (Choice.mk.inj h).2) (nodup_madeFrom p.1 g)
    rwa [List.map_map] at hplaces
  · obtain ⟨made, -, rfl⟩ := List.mem_map.1 hc
    rfl

/-- No chain with a step more is listed twice, if no chain is. -/
theorem nodup_stepThen {chains : Graph → List (List Choice × Graph)} (hchains : ∀ h, ((chains h).map (·.1)).Nodup) (g : Graph) :
    ((stepThen surgeries chains g).map (·.1)).Nodup := by
  have hfirst := (nodup_stepsFrom surgeries g).map (Option.some_injective _)
  rw [List.map_map] at hfirst
  unfold stepThen
  rw [List.map_flatMap]
  simp only [List.map_map]
  refine nodup_flatMap_of_key List.head? hfirst (fun step _ => ?_) fun step _ cs hcs => ?_
  · have hrest := List.Nodup.map (f := List.cons step.1) List.cons_injective (hchains step.2)
    rwa [List.map_map] at hrest
  · obtain ⟨chain, -, rfl⟩ := List.mem_map.1 hcs
    rfl

/-- No chain is listed twice. -/
theorem nodup_chainsFrom (surgeries : List Surgery) (rounds : Nat) (g : Graph) :
    ((chainsFrom surgeries rounds g).map (·.1)).Nodup := by
  have hone : ∀ g, ((stepThen surgeries stay g).map (·.1)).Nodup := nodup_stepThen fun h => List.nodup_singleton []
  induction rounds generalizing g with
  | zero => exact hone g
  | succ rounds ih =>
    rw [chainsFrom, List.map_append]
    refine List.nodup_append.2 ⟨hone g, nodup_stepThen ih g, ?_⟩
    -- The ones have one step, the others more.
    intro cs hcs cs' hcs' heq
    obtain ⟨short, hshort, rfl⟩ := List.mem_map.1 hcs
    obtain ⟨long, hlong, rfl⟩ := List.mem_map.1 hcs'
    obtain ⟨-, -, hmost⟩ := (mem_stepThen_iff mem_stay).1 hshort
    obtain ⟨-, hleast, -⟩ := (mem_stepThen_iff mem_chainsFrom).1 hlong
    rw [heq] at hmost
    omega

/-! ## Results -/

/-- What a surgery makes does not depend on what is recorded. -/
theorem execute_results (s : Surgery) (g : Graph) (sink : Sink) : ((s.execute g).run sink).1 = (s.madeFrom g).map (·.2) := by
  have hresults : ((s.execute g).run sink).1 = (Matcher.plain s.pattern g).all.filterMap fun m => (s.operate g m).toOption :=
    congrArg Prod.fst (operateFrom_run 0 (Matcher.plain s.pattern g).all _)
  have hmade : (s.madeFrom g).map (·.2) =
      ((Matcher.plain s.pattern g).all.zipIdx.map (·.1)).filterMap fun m => (s.operate g m).toOption := by
    unfold madeFrom
    rw [List.map_filterMap, List.filterMap_map]
    simp only [Option.map_map, Function.comp_def, Option.map_id']
  rw [hresults, hmade, List.zipIdx_map_fst]

/-- What is made of the items of a list, if what is made of each does not depend on what is recorded. -/
theorem gather_results {α : Type} {make : α → StateM Sink (List Graph)} {made : α → List Graph}
    (h : ∀ a sink, ((make a).run sink).1 = made a) (as : List α) (sink : Sink) : ((gather make as).run sink).1 = as.flatMap made := by
  induction as generalizing sink with
  | nil => rfl
  | cons a as ih =>
    have hcons : ((gather make (a :: as)).run sink).1 =
        ((make a).run sink).1 ++ ((gather make as).run ((make a).run sink).2).1 := rfl
    rw [hcons, h, ih, List.flatMap_cons]

theorem executeAll_results (surgeries : List Surgery) (g : Graph) (sink : Sink) :
    ((executeAll surgeries g).run sink).1 = (stepsFrom surgeries g).map (·.2) := by
  have hsteps : (stepsFrom surgeries g).map (·.2) = (surgeries.zipIdx.map (·.1)).flatMap fun s => (s.madeFrom g).map (·.2) := by
    unfold stepsFrom
    rw [List.map_flatMap, List.flatMap_map]
    simp only [List.map_map, Function.comp_def]
  rw [executeAll, gather_results (fun s => execute_results s g), hsteps, List.zipIdx_map_fst]

/-- Where chains with a step more lead. -/
theorem map_stepThen (chains : Graph → List (List Choice × Graph)) :
    (stepThen surgeries chains g).map (·.2) = ((stepsFrom surgeries g).map (·.2)).flatMap fun h => (chains h).map (·.2) := by
  unfold stepThen
  rw [List.map_flatMap, List.flatMap_map]
  simp only [List.map_map, Function.comp_def]

/-- The graphs made in some rounds are those to which the listed chains lead. -/
theorem chains_results (surgeries : List Surgery) (rounds : Nat) (g : Graph) (sink : Sink) :
    ((chains surgeries rounds g).run sink).1 = (chainsFrom surgeries rounds g).map (·.2) := by
  have hone : ∀ g, (stepThen surgeries stay g).map (·.2) = (stepsFrom surgeries g).map (·.2) := by
    intro g
    rw [map_stepThen]
    exact List.flatMap_singleton' _
  induction rounds generalizing g sink with
  | zero => exact (executeAll_results surgeries g sink).trans (hone g).symm
  | succ rounds ih =>
    let first := (executeAll surgeries g).run sink
    have hrounds : ((chains surgeries (rounds + 1) g).run sink).1 =
        first.1 ++ ((gather (chains surgeries rounds) first.1).run first.2).1 := rfl
    rw [hrounds, gather_results ih, executeAll_results, chainsFrom, List.map_append, hone, map_stepThen]

/-! ## Exhaustive surgery -/

/-- Exhaustive surgery that drops no duplicates makes one graph for each chain of at least one step and at most as many as there are
rounds, and no others; what it makes it makes at least as often with one round more. There is always one round. -/
theorem exhaust_enumerates (surgeries : List Surgery) (maxDepth : Int) (g : Graph) (sink sink' : Sink) :
    let results := ((exhaust surgeries maxDepth false g).run sink).1
    (∃ found : List (List Choice × Graph), results = found.map (·.2) ∧ (found.map (·.1)).Nodup ∧
      ∀ cs h, (cs, h) ∈ found ↔ Chain surgeries cs g h ∧ 1 ≤ cs.length ∧ (cs.length : Int) ≤ max 1 maxDepth) ∧
    results.Subperm ((exhaust surgeries (maxDepth + 1) false g).run sink').1 := by
  have hexhaust : ∀ depth sink, ((exhaust surgeries depth false g).run sink).1 =
      (chainsFrom surgeries (depth - 1).toNat g).map (·.2) := fun depth sink => chains_results ..
  have hmore : (chainsFrom surgeries (maxDepth - 1).toNat g).Subperm (chainsFrom surgeries (maxDepth + 1 - 1).toNat g) := by
    refine List.subperm_of_subset (List.Nodup.of_map _ (nodup_chainsFrom ..)) fun ⟨cs, h⟩ hchain => ?_
    obtain ⟨hchain, hleast, hmost⟩ := mem_chainsFrom.1 hchain
    exact mem_chainsFrom.2 ⟨hchain, hleast, by omega⟩
  intro results
  refine ⟨⟨chainsFrom surgeries (maxDepth - 1).toNat g, hexhaust .., nodup_chainsFrom .., fun cs h => ?_⟩, ?_⟩
  · rw [mem_chainsFrom]
    exact and_congr Iff.rfl (and_congr Iff.rfl (by omega))
  · obtain ⟨found, hperm, hsub⟩ := hmore
    rw [show results = _ from hexhaust .., hexhaust]
    exact ⟨found.map (·.2), hperm.map _, hsub.map _⟩

end Treebank.Surgery
