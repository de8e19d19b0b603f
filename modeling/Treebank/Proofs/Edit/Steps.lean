import Treebank.Proofs.Checked.Edit

/-!
# Edits step by step

An edit looks names up, reads the graph, and changes it by one token or one edge at a time. Done so, step by step, a step that fails
leaves the workspace as the steps before it made it. The steps of an edit come to what the checked edit comes to, and where a name fails
they have changed nothing, whatever the graph is like (`carriesOut_steps`): all names are looked up before the first change.
-/

namespace Treebank.Edit

open Treebank.Graph

/-- Steps over a workspace, the rest of which are left out when one fails. -/
abbrev Steps := ExceptT Failure (StateM Workspace)

section

variable {α : Type}

/-- Looks names up. -/
def resolve (f : Workspace → Except ReferenceError α) : Steps α := do
  match f (← get) with
  | .ok a => return a
  | .error err => throw (.reference err)

/-- Reads something of the graph that has to be there. -/
def inspect (f : Graph → Except GraphError α) : Steps α := do
  match f (← get).graph with
  | .ok a => return a
  | .error err => throw (.graph err)

/-- Reads something of the graph. -/
def view (f : Graph → α) : Steps α := do
  return f (← get).graph

/-- Changes the graph. -/
def alter (change : Graph → Except GraphError Graph) : Steps Unit := do
  let g ← inspect change
  modify (·.over g)

end

/-! ## Steps of edits -/

/-- Removes an edge step by step. -/
def Removal.steps (r : Removal) : Steps Unit :=
  match given? r.edge with
  | some name => do
    let e ← resolve (·.edge name)
    let _ ← ([r.governor, r.dependent].filterMap given?).mapM fun name => resolve (·.node name)
    alter fun g => if g.contains e then g.removeEdge e else .ok g
  | none => do
    let governor ← resolve (·.node (r.governor.getD ""))
    let dependent ← resolve (·.node (r.dependent.getD ""))
    let es ← view fun g => (g.edge? { governor := governor, dependent := dependent, relation := r.relation }).toList
    es.forM fun e => alter (·.removeEdge e)

/-- Applies an edit step by step. -/
def steps : Edit → Steps Unit
  | removeEdge r => r.steps
  | addEdge governor dependent relation weight extra => do
    let governor ← resolve (·.node governor)
    let dependent ← resolve (·.node dependent)
    let q : EdgeQuery := { governor := governor, dependent := dependent, relation := some relation }
    alter fun g => if (g.edge? q).isSome then .ok g else g.addEdge ⟨governor, dependent, relation, weight, extra⟩
  | addDependent governor relation attributes name weight => do
    let governor ← resolve (·.node governor)
    let index ← view (·.nextIndex)
    (do
      let position ← inspect (·.checkedLeftmostPosition governor)
      alter (·.addToken (Token.ofAttributes index position attributes))
      alter (·.addEdge ⟨governor, index, relation, weight, false⟩))
    modify (·.bind name index)
  | delete node => do
    let top ← resolve (·.node node)
    let doomed ← inspect (·.checkedSubtree top)
    doomed.forM fun index => alter (·.removeToken index)
    alter fun g => do
      let _ ← g.resetRoots.roots.mapM g.token
      return g.resetRoots
  | addNode attributes name => do
    let index ← view (·.nextIndex)
    alter (·.addToken (Token.ofAttributes index index attributes))
    modify (·.bind name index)
  | setRoots names => do
    let indices ← names.mapM fun name => resolve (·.node name)
    alter (·.setRoots indices)
  | killNonRootedNodes => do
    let _ ← inspect fun g => g.roots.mapM g.token
    let doomed ← view fun g => g.indices.filter (! g.rooted.contains ·)
    doomed.forM fun index => alter (·.removeToken index)
  | killAllIncomingEdges node => do
    let target ← resolve (·.node node)
    let _ ← inspect (·.token target)
    let es ← view (·.incoming target)
    es.forM fun e => alter (·.removeEdge e)

/-! ## What steps come to -/

section

variable {α β : Type} {w : Workspace} {x : Steps α} {k : α → Steps β} {a : α}

/-- What steps come to, and what the workspace is like after them. -/
def Steps.outcome (x : Steps α) (w : Workspace) : Except Failure α × Workspace := x.run.run w

/-- Steps after others begin with what these left. -/
theorem outcome_bind_ok {w' : Workspace} (h : x.outcome w = (.ok a, w')) : (x >>= k).outcome w = (k a).outcome w' := by
  show (match x.outcome w with | (r, w') => (ExceptT.bindCont k r).run w') = _
  rw [h]
  rfl

/-- Where a step fails, the rest is left out. -/
theorem outcome_bind_error {w' : Workspace} {err : Failure} (h : x.outcome w = (.error err, w')) :
    (x >>= k).outcome w = (.error err, w') := by
  show (match x.outcome w with | (r, w') => (ExceptT.bindCont k r).run w') = _
  rw [h]
  rfl

theorem outcome_modify (f : Workspace → Workspace) (w : Workspace) : (modify f : Steps Unit).outcome w = (.ok (), f w) := rfl

theorem outcome_view (f : Graph → α) (w : Workspace) : (view f).outcome w = (.ok (f w.graph), w) := rfl

/-- Looking names up changes nothing. -/
theorem outcome_resolve (f : Workspace → Except ReferenceError α) (w : Workspace) :
    (resolve f).outcome w = ((f w).mapError Failure.reference, w) := by
  show (match f w with | .ok a => (pure a : Steps α) | .error err => throw (Failure.reference err)).outcome w = _
  cases f w <;> rfl

/-- Reading the graph changes nothing. -/
theorem outcome_inspect (f : Graph → Except GraphError α) (w : Workspace) :
    (inspect f).outcome w = ((f w.graph).mapError Failure.graph, w) := by
  show (match f w.graph with | .ok a => (pure a : Steps α) | .error err => throw (Failure.graph err)).outcome w = _
  cases f w.graph <;> rfl

/-- Looking up more names changes nothing, either. -/
theorem outcome_bind_resolve {f : Except ReferenceError α} {g : α → Except ReferenceError β}
    (hfirst : x.outcome w = (f.mapError Failure.reference, w)) (hrest : ∀ a, (k a).outcome w = ((g a).mapError Failure.reference, w)) :
    (x >>= k).outcome w = ((f >>= g).mapError Failure.reference, w) := by
  cases f with
  | error err => exact outcome_bind_error hfirst
  | ok a => exact (outcome_bind_ok hfirst).trans (hrest a)

/-- Several names are looked up one after the other. -/
theorem outcome_mapM_resolve (names : List String) (w : Workspace) :
    (names.mapM fun name => resolve (·.node name)).outcome w = ((names.mapM w.node).mapError Failure.reference, w) := by
  induction names with
  | nil => rfl
  | cons name names ih =>
    rw [List.mapM_cons, List.mapM_cons]
    exact outcome_bind_resolve (outcome_resolve (·.node name) w) fun i => outcome_bind_resolve ih fun is => rfl

end

/-! ## Changes of the graph -/

section

variable {w : Workspace} {α : Type}

/-- Steps that carry out a change of the graph, and nothing else. Where the change fails, part of it may have been made. -/
def Alters (w : Workspace) (x : Except GraphError Graph) (y : Steps Unit) : Prop :=
  match x with
  | .ok g => y.outcome w = (.ok (), w.over g)
  | .error err => ∃ g, y.outcome w = (.error (.graph err), w.over g)

/-- Steps that come to the same, from a workspace with another graph on. -/
theorem Alters.congr {g : Graph} {x : Except GraphError Graph} {y z : Steps Unit} (h : Alters (w.over g) x z)
    (heq : y.outcome w = z.outcome (w.over g)) : Alters w x y := by
  unfold Alters at h ⊢
  rwa [heq]

/-- A change after another one. -/
theorem Alters.andThen {x : Except GraphError Graph} {y : Steps Unit} {f : Graph → Except GraphError Graph} {z : Steps Unit}
    (h : Alters w x y) (hrest : ∀ g, Alters (w.over g) (f g) z) : Alters w (x >>= f) (y >>= fun _ => z) := by
  cases x with
  | error err =>
    obtain ⟨g, hg⟩ := h
    exact ⟨g, outcome_bind_error hg⟩
  | ok g =>
    have hfirst : y.outcome w = (.ok (), w.over g) := h
    exact (hrest g).congr (outcome_bind_ok hfirst)

/-- A change that depends on something that has to be there. -/
theorem alters_inspect {f : Graph → Except GraphError α} {k : α → Except GraphError Graph} {k' : α → Steps Unit}
    (hrest : ∀ a, Alters w (k a) (k' a)) : Alters w (f w.graph >>= k) (inspect f >>= k') := by
  have hread := outcome_inspect f w
  cases hf : f w.graph with
  | error err =>
    rw [hf] at hread
    exact ⟨w.graph, outcome_bind_error hread⟩
  | ok a =>
    rw [hf] at hread
    exact Alters.congr (g := w.graph) (hrest a) (outcome_bind_ok hread)

/-- One change. -/
theorem alters_alter (change : Graph → Except GraphError Graph) (w : Workspace) : Alters w (change w.graph) (alter change) := by
  have hchange : Alters w (change w.graph >>= Except.ok) (alter change) := alters_inspect fun g => outcome_modify (·.over g) w
  rwa [show change w.graph >>= Except.ok = change w.graph from bind_pure _] at hchange

/-- A change that depends on what the graph is like. -/
theorem alters_view {f : Graph → α} {x : Except GraphError Graph} {k : α → Steps Unit} (hrest : Alters w x (k (f w.graph))) :
    Alters w x (view f >>= k) :=
  Alters.congr (g := w.graph) hrest (outcome_bind_ok (outcome_view f w))

/-- Changes of one kind, one after the other. -/
theorem alters_forM (change : Graph → α → Except GraphError Graph) (as : List α) (w : Workspace) :
    Alters w (as.foldlM change w.graph) (as.forM fun a => alter (change · a)) := by
  induction as generalizing w with
  | nil => exact (rfl : (pure () : Steps Unit).outcome w = (.ok (), w.over w.graph))
  | cons a as ih =>
    rw [List.foldlM_cons]
    exact (alters_alter (change · a) w).andThen fun g => ih (w.over g)

/-! ## Edits -/

/-- Steps that come to what a checked edit comes to. Where a name fails, they have changed nothing. -/
def CarriesOut (w : Workspace) (x : Except Failure Workspace) (y : Steps Unit) : Prop :=
  match x with
  | .ok w' => y.outcome w = (.ok (), w')
  | .error (.reference err) => y.outcome w = (.error (.reference err), w)
  | .error (.graph err) => ∃ w', y.outcome w = (.error (.graph err), w')

/-- A change of the graph carries an edit out. -/
theorem Alters.carriesOut {x : Except GraphError Graph} {y : Steps Unit} (h : Alters w x y) : CarriesOut w (w.checkedOver x) y := by
  cases x with
  | ok g => exact h
  | error err =>
    obtain ⟨g, hg⟩ := h
    exact ⟨_, hg⟩

/-- A change of the graph, and a name for what it made. -/
theorem Alters.carriesOut_bind {x : Except GraphError Graph} {y : Steps Unit} (h : Alters w x y) (name : Option String) (index : Int) :
    CarriesOut w (do return (← w.checkedOver x).bind name index) (y >>= fun _ => modify (·.bind name index)) := by
  cases x with
  | ok g =>
    have hfirst : y.outcome w = (.ok (), w.over g) := h
    exact (outcome_bind_ok hfirst).trans (outcome_modify _ _)
  | error err =>
    obtain ⟨g, hg⟩ := h
    exact ⟨_, outcome_bind_error hg⟩

/-- Names are looked up before anything is changed. -/
theorem carriesOut_bind {f : Except ReferenceError α} {y : Steps α} {k : α → Except Failure Workspace} {k' : α → Steps Unit}
    (hread : y.outcome w = (f.mapError .reference, w)) (hrest : ∀ a, CarriesOut w (k a) (k' a)) :
    CarriesOut w (f.mapError .reference >>= k) (y >>= k') := by
  cases f with
  | error err => exact outcome_bind_error hread
  | ok a =>
    have hread : y.outcome w = (.ok a, w) := hread
    have hthen := hrest a
    rw [mapError_ok, bind_ok]
    unfold CarriesOut at hthen ⊢
    rwa [outcome_bind_ok hread]

/-- What the graph is like is read. -/
theorem carriesOut_view {f : Graph → α} {x : Except Failure Workspace} {k : α → Steps Unit}
    (hrest : CarriesOut w x (k (f w.graph))) : CarriesOut w x (view f >>= k) := by
  unfold CarriesOut at hrest ⊢
  rwa [outcome_bind_ok (outcome_view f w)]

theorem Removal.carriesOut_steps (r : Removal) (w : Workspace) : CarriesOut w (r.checkedApply w) r.steps := by
  unfold Removal.checkedApply Removal.steps
  cases given? r.edge with
  | some name =>
    refine carriesOut_bind (outcome_resolve _ w) fun e => carriesOut_bind (outcome_mapM_resolve _ w) fun is => ?_
    exact (alters_alter (fun g => if g.contains e then g.removeEdge e else .ok g) w).carriesOut
  | none =>
    refine carriesOut_bind (outcome_resolve _ w) fun governor => carriesOut_bind (outcome_resolve _ w) fun dependent => ?_
    exact (alters_view (alters_forM Graph.removeEdge _ w)).carriesOut

/-- Step by step an edit comes to what the checked edit comes to; where a name fails, nothing has changed. -/
theorem carriesOut_steps (e : Edit) (w : Workspace) : CarriesOut w (e.checkedApply w) e.steps := by
  cases e with
  | removeEdge r => exact r.carriesOut_steps w
  | addEdge governor dependent relation weight extra =>
    refine carriesOut_bind (outcome_resolve _ w) fun governor => carriesOut_bind (outcome_resolve _ w) fun dependent => ?_
    exact (alters_alter (fun g => if (g.edge? { governor, dependent, relation := some relation }).isSome then .ok g
      else g.addEdge ⟨governor, dependent, relation, weight, extra⟩) w).carriesOut
  | addDependent governor relation attributes name weight =>
    refine carriesOut_bind (outcome_resolve _ w) fun governor => carriesOut_view ?_
    refine Alters.carriesOut_bind (alters_inspect (f := (·.checkedLeftmostPosition governor)) fun position => ?_) name _
    exact (alters_alter (·.addToken _) w).andThen fun g => alters_alter (·.addEdge _) (w.over g)
  | delete node =>
    refine carriesOut_bind (outcome_resolve _ w) fun top => ?_
    refine Alters.carriesOut (alters_inspect (f := (·.checkedSubtree top)) fun doomed => ?_)
    refine (alters_forM Graph.removeToken doomed w).andThen fun g => ?_
    exact alters_alter (fun g => do
      let _ ← g.resetRoots.roots.mapM g.token
      return g.resetRoots) (w.over g)
  | addNode attributes name => exact carriesOut_view ((alters_alter (·.addToken _) w).carriesOut_bind name _)
  | setRoots names => exact carriesOut_bind (outcome_mapM_resolve _ w) fun indices => (alters_alter (·.setRoots indices) w).carriesOut
  | killNonRootedNodes =>
    refine Alters.carriesOut (alters_inspect (f := fun g => g.roots.mapM g.token) fun _ => alters_view ?_)
    exact alters_forM Graph.removeToken _ w
  | killAllIncomingEdges node =>
    refine carriesOut_bind (outcome_resolve _ w) fun target => ?_
    refine Alters.carriesOut (alters_inspect (f := (·.token target)) fun _ => alters_view ?_)
    exact alters_forM Graph.removeEdge _ w

/-- Step by step an edit of a sound graph comes to what it comes to at once, and fails for names alone; then nothing has changed. -/
theorem outcome_steps (hw : w.graph.Sound) (e : Edit) : e.steps.outcome w = match e.apply w with
    | .ok w' => (.ok (), w')
    | .error err => (.error (.reference err), w) := by
  have hcarries := carriesOut_steps e w
  rw [(checkedApply_agrees hw e).eq] at hcarries
  cases happly : e.apply w with
  | ok w' =>
    rw [happly] at hcarries
    exact hcarries
  | error err =>
    rw [happly] at hcarries
    exact hcarries

end

end Treebank.Edit
