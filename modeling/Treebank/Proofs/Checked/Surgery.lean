import Treebank.Proofs.Checked.Edit
import Treebank.Proofs.Checked.Search
import Treebank.Proofs.Diagnostics
import Treebank.Surgery.Basic
import Mathlib.Tactic.Ring

/-!
# Checked surgery

A surgery gives a graph for each match whose edits find their names, and a warning for each of the others. Nothing else can fail in it:
with searches and edits that fail where something is not there it comes to the same (`execute_accounts`).
-/

namespace Treebank

namespace Surgery

open Edit

/-! ## Checked surgeries -/

/-- The graph that the edits make of a match; every change that they make has to succeed. -/
def checkedOperate (s : Surgery) (g : Graph) (m : Match) : Except Failure Graph := do
  return (← checkedApplyAll { graph := g.copy, bindings := m.bindings } s.edits).graph

/-- The warning that a name has failed in a match. -/
def warning (s : Surgery) (number : Nat) (e : ReferenceError) : Diagnostics.Event where
  level := .warning
  code := "edit_failed"
  message := e.message
  context := [("pattern", .str s.title), ("match", .int number), ("name", .str e.name)]

/-- The graphs that are made of matches; a change that fails ends the surgery. -/
def checkedOperateFrom (s : Surgery) (g : Graph) (number : Nat) : List Match → Recorded Lapse (List Graph)
  | [] => return []
  | m :: ms =>
    match s.checkedOperate g m with
    | .ok derived => do return derived :: (← checkedOperateFrom s g (number + 1) ms)
    | .error (.graph e) => throw (.graph e)
    | .error (.reference e) => do
      Recorded.increment "matches_failed" 1
      Recorded.emit (s.warning number e)
      checkedOperateFrom s g (number + 1) ms

/-- The graphs that a surgery makes of a graph; something that is missing in the search, or a change that fails, ends the surgery. -/
def checkedExecute (s : Surgery) (g : Graph) : Recorded Lapse (List Graph) := do
  let stage := (← get).stages.length
  modify (·.openStage ("surgery:" ++ s.title) (.zero false))
  let found ← ExceptT.mk (pure (Matcher.plain s.pattern g).checkedAll)
  Recorded.increment Matcher.foundCounter found.length
  let derived ← s.checkedOperateFrom g 0 found
  modify (·.closeStage stage (.zero false) none)
  Recorded.increment "graphs_produced" derived.length
  return derived

/-! ## Nothing is missing, and no change fails -/

variable {s : Surgery} {g : Graph}

/-- The matches, numbered from the given number on, whose edits fail, with the names that fail. -/
def failures (s : Surgery) (g : Graph) (number : Nat) (ms : List Match) : List (Nat × ReferenceError) :=
  (ms.zipIdx number).filterMap fun (m, n) =>
    match s.operate g m with
    | .ok _ => none
    | .error e => some (n, e)

theorem failures_cons_ok {m : Match} {derived : Graph} (h : s.operate g m = .ok derived) (number : Nat) (ms : List Match) :
    s.failures g number (m :: ms) = s.failures g (number + 1) ms := by
  unfold failures
  rw [List.zipIdx_cons, List.filterMap_cons]
  simp only [h]

theorem failures_cons_error {m : Match} {e : ReferenceError} (h : s.operate g m = .error e) (number : Nat) (ms : List Match) :
    s.failures g number (m :: ms) = (number, e) :: s.failures g (number + 1) ms := by
  unfold failures
  rw [List.zipIdx_cons, List.filterMap_cons]
  simp only [h]

/-- Records that the edits of a match fail. -/
def report (s : Surgery) (sink : Sink) (failure : Nat × ReferenceError) : Sink :=
  (sink.increment "matches_failed" 1).emit (s.warning failure.1 failure.2)

/-- Matches give graphs or are reported. -/
theorem operateFrom_run (number : Nat) (ms : List Match) (sink : Sink) :
    (s.operateFrom g number ms).run sink =
      (ms.filterMap fun m => (s.operate g m).toOption, (s.failures g number ms).foldl s.report sink) := by
  induction ms generalizing number sink with
  | nil => rfl
  | cons m ms ih =>
    rw [operateFrom, List.filterMap_cons]
    cases h : s.operate g m with
    | ok derived =>
      rw [failures_cons_ok h]
      simp only [StateT.run_bind, ih (number + 1) sink]
      rfl
    | error e =>
      rw [failures_cons_error h]
      exact ih (number + 1) (s.report sink (number, e))

/-- Edits make a graph of a match, or fail for a name. -/
theorem checkedOperate_eq (hg : g.Sound) (m : Match) : s.checkedOperate g m = (s.operate g m).mapError .reference := by
  have h := (checkedApplyAll_agrees (w := { graph := g.copy, bindings := m.bindings }) hg.copy s.edits).eq
  unfold checkedOperate operate
  rw [h]
  cases applyAll { graph := g.copy, bindings := m.bindings } s.edits <;> rfl

/-- No change ends a surgery. -/
theorem checkedOperateFrom_run (hg : g.Sound) (number : Nat) (ms : List Match) (sink : Sink) :
    (s.checkedOperateFrom g number ms).run.run sink =
      (.ok (ms.filterMap fun m => (s.operate g m).toOption), (s.failures g number ms).foldl s.report sink) := by
  induction ms generalizing number sink with
  | nil => rfl
  | cons m ms ih =>
    rw [checkedOperateFrom, List.filterMap_cons, checkedOperate_eq hg]
    cases h : s.operate g m with
    | ok derived =>
      rw [failures_cons_ok h]
      exact Recorded.run_bind_ok (ih (number + 1) sink)
    | error e =>
      rw [failures_cons_error h]
      exact ih (number + 1) (s.report sink (number, e))

/-! ## Accounts -/

/-- Reports are recorded in order. -/
theorem events_foldl_report (fs : List (Nat × ReferenceError)) (sink : Sink) :
    (fs.foldl s.report sink).events = sink.events ++ fs.map fun f => s.warning f.1 f.2 := by
  induction fs generalizing sink with
  | nil => simp
  | cons f fs ih =>
    rw [List.foldl_cons, ih, List.map_cons, List.append_cons]
    rfl

/-- Reports are counted. -/
theorem count_foldl_report (fs : List (Nat × ReferenceError)) (sink : Sink) (counter : String) :
    (fs.foldl s.report sink).count counter = sink.count counter + if counter = "matches_failed" then (fs.length : Int) else 0 := by
  induction fs generalizing sink with
  | nil => simp
  | cons f fs ih =>
    have hreport : (s.report sink f).count counter = sink.count counter + if counter = "matches_failed" then 1 else 0 :=
      Sink.count_increment sink "matches_failed" counter 1
    rw [List.foldl_cons, ih, hreport, List.length_cons]
    split <;> push_cast <;> ring

/-- A match gives a graph or fails. -/
theorem length_failures (number : Nat) (ms : List Match) :
    (ms.filterMap fun m => (s.operate g m).toOption).length + (s.failures g number ms).length = ms.length := by
  induction ms generalizing number with
  | nil => rfl
  | cons m ms ih =>
    have := ih (number + 1)
    rw [List.filterMap_cons]
    cases h : s.operate g m with
    | ok derived =>
      rw [failures_cons_ok h]
      change (derived :: ms.filterMap fun m => (s.operate g m).toOption).length + _ = _
      simp only [List.length_cons]
      omega
    | error e =>
      rw [failures_cons_error h]
      change (ms.filterMap fun m => (s.operate g m).toOption).length + _ = _
      simp only [List.length_cons]
      omega

/-- A surgery on a sound graph fails nowhere, checked or not. Its results are the graphs that the edits make of the matches, in order:
each match has a copy of the graph for itself, and is left out if a name fails in it. Each such match is reported once, with its number.
The matches are counted, those that gave a graph and those that failed; no other counter changes. -/
theorem execute_accounts {options : PatternOptions} {text : String} (hs : Pattern.ofText options text = .ok s.pattern)
    (hg : g.Sound) (sink : Sink) :
    let found := ((Matcher.plain s.pattern g).findAll.run {}).1
    let results := found.filterMap fun m =>
      (applyAll { graph := g.copy, bindings := m.bindings } s.edits).toOption.map fun w => w.graph
    let failures := found.zipIdx.filterMap fun (m, number) =>
      match applyAll { graph := g.copy, bindings := m.bindings } s.edits with
      | .ok _ => none
      | .error e => some (number, e)
    ∃ sink', (s.checkedExecute g).run.run sink = (.ok results, sink') ∧ (s.execute g).run sink = (results, sink') ∧
      sink'.events = sink.events ++ failures.map (fun (number, e) =>
        { level := .warning
          code := "edit_failed"
          message := e.message
          context := [("pattern", .str s.title), ("match", .int number), ("name", .str e.name)] }) ∧
      found.length = results.length + failures.length ∧
      ∀ counter, sink'.count counter = sink.count counter +
        if counter = "matches_found" then (found.length : Int)
        else if counter = "graphs_produced" then (results.length : Int)
        else if counter = "matches_failed" then (failures.length : Int)
        else 0 := by
  intro found results failures
  have hresults : found.filterMap (fun m => (s.operate g m).toOption) = results := by
    refine List.filterMap_congr fun m _ => ?_
    unfold operate
    cases applyAll { graph := g.copy, bindings := m.bindings } s.edits <;> rfl
  have hfailures : s.failures g 0 found = failures := by
    refine List.filterMap_congr ?_
    rintro ⟨m, number⟩ -
    dsimp only [operate]
    cases applyAll { graph := g.copy, bindings := m.bindings } s.edits <;> rfl
  have hfound : (Matcher.plain s.pattern g).checkedAll = .ok found :=
    Matcher.checkedAll_eq hg (Pattern.namesFollowed_ofText hs)
  let begun := (sink.openStage ("surgery:" ++ s.title) (.zero false)).increment Matcher.foundCounter found.length
  let ended := (failures.foldl s.report begun).closeStage sink.stages.length (.zero false) none
  have hchecked : (s.checkedOperateFrom g 0 found).run.run begun = (.ok results, failures.foldl s.report begun) := by
    rw [checkedOperateFrom_run hg, hresults, hfailures]
  have hplain : (s.operateFrom g 0 found).run begun = (results, failures.foldl s.report begun) := by
    rw [operateFrom_run, hresults, hfailures]
  refine ⟨ended.increment "graphs_produced" results.length, ?_, ?_, ?_, ?_, fun counter => ?_⟩
  · unfold checkedExecute
    rw [hfound]
    exact Recorded.run_bind_ok hchecked
  · exact congrArg (fun p : List Graph × Sink =>
      (p.1, (p.2.closeStage sink.stages.length (.zero false) none).increment "graphs_produced" p.1.length)) hplain
  · exact events_foldl_report failures begun
  · have := length_failures (s := s) (g := g) 0 found
    rw [hresults, hfailures] at this
    exact this.symm
  · have hbegun : begun.count counter = sink.count counter + if counter = "matches_found" then ↑found.length else 0 :=
      Sink.count_increment _ _ counter _
    have hended : ended.count counter = begun.count counter + if counter = "matches_failed" then ↑failures.length else 0 :=
      count_foldl_report failures begun counter
    rw [Sink.count_increment, hended, hbegun]
    by_cases hf : counter = "matches_found"
    · subst hf
      simp
    · by_cases hp : counter = "graphs_produced"
      · subst hp
        simp
      · simp [hf, hp]

/-- So it is where an optional name is deleted: in the one of two matches that leaves it unbound, the edit fails. -/
theorem execute_accounts_optional :
    let graph : Graph :=
      { tokens := [(1, { index := 1 }), (2, { index := 2 }), (3, { index := 3 })]
        arcs := [⟨1, { governor := 2, dependent := 3, relation := "obj" }⟩, ⟨0, { governor := 1, dependent := 2, relation := "obj" }⟩]
        fresh := 2 }
    ∃ s : Surgery, Pattern.ofText {} "\x7b\x7d=a > \x7b\x7d=b ?> (\x7b\x7d=b > \x7b\x7d=c)" = .ok s.pattern ∧ graph.Sound ∧
      ∃ results sink', (s.checkedExecute graph).run.run {} = (.ok results, sink') ∧ (s.execute graph).run {} = (results, sink') ∧
        results.length = 1 ∧ sink'.events.length = 1 ∧ sink'.count "matches_found" = 2 ∧ sink'.count "graphs_produced" = 1 ∧
          sink'.count "matches_failed" = 1 := by
  intro graph
  let edits : List Edit := [.delete "c"]
  obtain ⟨p, hp, hcounts⟩ := exists_ok_of_map_toOption
    (x := Pattern.ofText {} "\x7b\x7d=a > \x7b\x7d=b ?> (\x7b\x7d=b > \x7b\x7d=c)") (b := (2, 1))
    (g := fun p => (((Matcher.plain p graph).findAll.run {}).1.length,
      ((Surgery.execute { pattern := p, edits := edits } graph).run {}).1.length)) (by decide +kernel)
  have hsound : graph.Sound := by
    refine (((((Graph.sound_empty.addToken (t := { index := 1 }) rfl).addToken (t := { index := 2 }) rfl).addToken
      (t := { index := 3 }) rfl).addEdge (e := { governor := 1, dependent := 2, relation := "obj" }) rfl).addEdge
      (e := { governor := 2, dependent := 3, relation := "obj" }) rfl)
  obtain ⟨sink', hchecked, hplain, hevents, hlength, hcount⟩ :=
    execute_accounts (s := { pattern := p, edits := edits }) hp hsound {}
  obtain ⟨hfound, hresults⟩ := Prod.mk.inj hcounts
  rw [hplain] at hresults
  rw [hfound, hresults] at hlength
  have hfailed := Nat.add_left_cancel (show 1 + 1 = 1 + _ from hlength)
  refine ⟨{ pattern := p, edits := edits }, hp, hsound, _, sink', hchecked, hplain, hresults, ?_, ?_, ?_, ?_⟩
  · rw [hevents, List.length_append, List.length_map]
    exact (Nat.zero_add _).trans hfailed.symm
  · rw [hcount]
    simp [hfound, Sink.count]
  · rw [hcount]
    simp [hresults, Sink.count]
  · rw [hcount]
    exact congrArg (fun n : Nat => (0 : Int) + n) hfailed.symm

end Surgery

end Treebank
