import Treebank.Frame.Matches
import Treebank.Proofs.Except
import Treebank.Proofs.Pattern.WellFormed

/-!
# Match frames read back

A match frame has a row for every match, in the order of the graphs and of the matches in each (`rows_ofMatches`). What a row says is read
by the names of its columns, and these are shared: the name of a place that is the name of a fixed column takes the column over, and the
name of an edge that is one gets no column of its own. So every row says all of its match exactly if no fixed column has the name of an
edge, or of a place that is bound to something else (`ofMatches_reports_iff`).
-/

namespace Treebank

namespace Frame

/-! ## Columns under names -/

section Columns

variable {α β : Type}

/-- Adds a column, unless there is one of its name. -/
def addColumn (f : String → α) (row : List (String × α)) (name : String) : List (String × α) :=
  if Pairs.has row name then row else row ++ [(name, f name)]

/-- The columns of some names, put in the place of those of the same name, and then the columns of others, added unless there are some. -/
def withColumns (put add : List String) (f g : String → α) (row : List (String × α)) : List (String × α) :=
  add.foldl (addColumn g) (put.foldl (fun row name => Pairs.put row name (f name)) row)

theorem lookup_addColumn (f : String → α) (row : List (String × α)) (name x : String) :
    (addColumn f row name).lookup x = (row.lookup x).or (if x = name then some (f x) else none) := by
  unfold addColumn
  split
  · rename_i h
    by_cases hx : x = name
    · obtain ⟨a, ha⟩ := Option.isSome_iff_exists.1 (Pairs.isSome_lookup_iff.2 (Pairs.has_iff_mem.1 h))
      simp [hx, ha]
    · simp [hx]
  · by_cases hx : x = name <;> simp [List.lookup_append, Pairs.lookup_cons_eq, hx]

/-- What stands in the column of a name: what was put there, or else what was there, or else what was added. -/
theorem lookup_withColumns (put add : List String) (f g : String → α) (row : List (String × α)) (x : String) :
    (withColumns put add f g row).lookup x =
      if x ∈ put then some (f x) else (row.lookup x).or (if x ∈ add then some (g x) else none) := by
  have hput : ∀ row : List (String × α), (put.foldl (fun row name => Pairs.put row name (f name)) row).lookup x =
      if x ∈ put then some (f x) else row.lookup x := by
    induction put with
    | nil => simp
    | cons name put ih =>
      intro row
      rw [List.foldl_cons, ih, Pairs.lookup_put]
      by_cases hx : x = name <;> by_cases hmem : x ∈ put <;> simp [hx, hmem]
  have hadd : ∀ row : List (String × α), (add.foldl (addColumn g) row).lookup x =
      (row.lookup x).or (if x ∈ add then some (g x) else none) := by
    induction add with
    | nil => simp
    | cons name add ih =>
      intro row
      rw [List.foldl_cons, ih, lookup_addColumn]
      by_cases hx : x = name <;> by_cases hmem : x ∈ add <;> simp [hx, hmem]
  rw [withColumns, hadd, hput]
  split <;> simp

theorem keys_addColumn (f : String → α) (row : List (String × α)) (name : String) :
    Pairs.keys (addColumn f row name) = Pairs.keys (Pairs.put row name (f name)) := by
  unfold addColumn
  split
  · rename_i h
    rw [Pairs.keys_put_of_has h]
  · rename_i h
    rw [Pairs.put_of_notMem (mt Pairs.has_iff_mem.2 h)]

/-- The names of columns depend on names alone. -/
theorem keys_withColumns {row : List (String × α)} {row' : List (String × β)} (h : Pairs.keys row = Pairs.keys row')
    (put add : List String) (f g : String → α) (f' g' : String → β) :
    Pairs.keys (withColumns put add f g row) = Pairs.keys (withColumns put add f' g' row') := by
  have hstep : ∀ {row : List (String × α)} {row' : List (String × β)} {name : String} (a : α) (b : β),
      Pairs.keys row = Pairs.keys row' → Pairs.keys (Pairs.put row name a) = Pairs.keys (Pairs.put row' name b) := by
    intro row row' name a b h
    by_cases hmem : name ∈ Pairs.keys row
    · rw [Pairs.keys_put_of_has (Pairs.has_iff_mem.2 hmem), Pairs.keys_put_of_has (Pairs.has_iff_mem.2 (h ▸ hmem)), h]
    · rw [Pairs.put_of_notMem hmem, Pairs.put_of_notMem (h ▸ hmem)]
      simpa [Pairs.keys] using h
  have hput : ∀ {row : List (String × α)} {row' : List (String × β)}, Pairs.keys row = Pairs.keys row' →
      Pairs.keys (put.foldl (fun row name => Pairs.put row name (f name)) row) =
        Pairs.keys (put.foldl (fun row name => Pairs.put row name (f' name)) row') := by
    induction put with
    | nil => exact id
    | cons name put ih => exact fun h => ih (hstep _ _ h)
  have hadd : ∀ {row : List (String × α)} {row' : List (String × β)}, Pairs.keys row = Pairs.keys row' →
      Pairs.keys (add.foldl (addColumn g) row) = Pairs.keys (add.foldl (addColumn g') row') := by
    induction add with
    | nil => exact id
    | cons name add ih =>
      intro row row' h
      exact ih (by rw [keys_addColumn, keys_addColumn, hstep _ _ h])
  exact hadd (hput h)

/-- Columns with different names get further ones with different names. -/
theorem nodup_withColumns {row : List (String × α)} (h : (Pairs.keys row).Nodup) (put add : List String) (f g : String → α) :
    (Pairs.keys (withColumns put add f g row)).Nodup := by
  have hput : ∀ {row : List (String × α)}, (Pairs.keys row).Nodup →
      (Pairs.keys (put.foldl (fun row name => Pairs.put row name (f name)) row)).Nodup := by
    induction put with
    | nil => exact id
    | cons name put ih => exact fun h => ih (Pairs.nodup_keys_put h name _)
  have hadd : ∀ {row : List (String × α)}, (Pairs.keys row).Nodup → (Pairs.keys (add.foldl (addColumn g) row)).Nodup := by
    induction add with
    | nil => exact id
    | cons name add ih =>
      intro row h
      refine ih ?_
      rw [keys_addColumn]
      exact Pairs.nodup_keys_put h name _
  exact hadd (hput h)

end Columns

/-! ## Rows -/

variable {p : Pattern} {sentence number : Nat} {m : Match} {x : String}

/-- What the fixed columns of a row say of a match. -/
def fixedEntries (sentence number : Nat) (m : Match) : List (String × Int) := [("sentence", sentence), ("match", number), ("root", m.root)]

theorem nodup_fixedEntries (sentence number : Nat) (m : Match) : ((fixedEntries sentence number m).map (·.1)).Nodup := by
  change ["sentence", "match", "root"].Nodup
  decide

/-- What the columns of a row say of a match, under their names. -/
def matchEntries (p : Pattern) (sentence number : Nat) (m : Match) : List (String × Cell) :=
  withColumns p.nodeNames p.edgeNames (fun x => .ofInt? (m.node? x)) (fun x => .ofText? ((m.edge? x).map (·.relation)))
    ((fixedEntries sentence number m).map fun (x, n) => (x, .int n))

theorem matchColumns_eq (p : Pattern) :
    matchColumns p = withColumns p.nodeNames p.edgeNames (fun _ => .int64) (fun _ => .text)
      [("sentence", .int64), ("match", .int64), ("root", .int64)] := rfl

theorem matchRow_eq (p : Pattern) (sentence number : Nat) (m : Match) :
    matchRow p sentence number m = (matchEntries p sentence number m).map (·.2) := rfl

/-- The columns of a row have the names of those of the frame. -/
theorem keys_matchEntries (p : Pattern) (sentence number : Nat) (m : Match) :
    Pairs.keys (matchEntries p sentence number m) = Pairs.keys (matchColumns p) := by
  rw [matchColumns_eq, matchEntries]
  refine keys_withColumns ?_ ..
  rfl

/-- A row with the names of the columns of its frame. -/
theorem zip_matchRow (p : Pattern) (sentence number : Nat) (m : Match) :
    (Pairs.keys (matchColumns p)).zip (matchRow p sentence number m) = matchEntries p sentence number m := by
  rw [← keys_matchEntries p sentence number m, matchRow_eq, Pairs.keys, List.zip_map', List.map_id']

/-- What stands in the column of a name. -/
theorem lookup_matchEntries (p : Pattern) (sentence number : Nat) (m : Match) (x : String) :
    (matchEntries p sentence number m).lookup x =
      if x ∈ p.nodeNames then some (.ofInt? (m.node? x))
      else (((fixedEntries sentence number m).lookup x).map Cell.int).or
        (if x ∈ p.edgeNames then some (.ofText? ((m.edge? x).map (·.relation))) else none) := by
  rw [matchEntries, lookup_withColumns, ← Pairs.lookup_map _ fun _ => Cell.int]

/-- What a row with the names of its columns says of a match: the number of the sentence, that of the match, the token at the top, and
what each name is bound to, if it is bound. -/
structure Reports (p : Pattern) (row : List (String × Cell)) (sentence number : Nat) (m : Match) : Prop where
  sentence : row.lookup "sentence" = some (.int sentence)
  number : row.lookup "match" = some (.int number)
  root : row.lookup "root" = some (.int m.root)
  node : ∀ x ∈ p.nodeNames, row.lookup x = some (.ofInt? (m.node? x))
  edge : ∀ x ∈ p.edgeNames, row.lookup x = some (.ofText? ((m.edge? x).map (·.relation)))

/-- Whether the names of a pattern leave the fixed columns of a row as they are: none is that of an edge, and a place of that name is
bound to what the column says. -/
def Spares (p : Pattern) (sentence number : Nat) (m : Match) : Prop :=
  ∀ entry ∈ fixedEntries sentence number m, entry.1 ∉ p.edgeNames ∧ (entry.1 ∈ p.nodeNames → m.node? entry.1 = some entry.2)

instance (p : Pattern) (sentence number : Nat) (m : Match) : Decidable (Spares p sentence number m) :=
  inferInstanceAs (Decidable (∀ entry ∈ _, _))

/-- What a fixed column says is right exactly if no place of its name is bound to something else. -/
theorem lookup_fixed_iff {entry : String × Int} (hentry : entry ∈ fixedEntries sentence number m) :
    (matchEntries p sentence number m).lookup entry.1 = some (.int entry.2) ↔
      (entry.1 ∈ p.nodeNames → m.node? entry.1 = some entry.2) := by
  have hfixed : (fixedEntries sentence number m).lookup entry.1 = some entry.2 :=
    (Pairs.lookup_eq_some_iff_mem (nodup_fixedEntries sentence number m)).2 hentry
  rw [lookup_matchEntries, hfixed]
  split
  · rename_i hnode
    cases hbound : m.node? entry.1 <;> simp [Cell.ofInt?, hnode]
  · rename_i hnode
    simp [hnode]

/-- A row says all of its match exactly if the names of the pattern leave its fixed columns as they are. -/
theorem reports_matchEntries_iff (hnodup : p.captureNames.Nodup) :
    Reports p (matchEntries p sentence number m) sentence number m ↔ Spares p sentence number m := by
  constructor
  · intro h entry hentry
    have hright : (matchEntries p sentence number m).lookup entry.1 = some (.int entry.2) := by
      simp only [fixedEntries, List.mem_cons, List.not_mem_nil, or_false] at hentry
      rcases hentry with rfl | rfl | rfl
      exacts [h.sentence, h.number, h.root]
    refine ⟨fun hedge => ?_, (lookup_fixed_iff hentry).1 hright⟩
    have hlabel := (h.edge entry.1 hedge).symm.trans hright
    cases hbound : m.edge? entry.1 <;> simp [Cell.ofText?, hbound] at hlabel
  · intro h
    have hright : ∀ entry ∈ fixedEntries sentence number m, (matchEntries p sentence number m).lookup entry.1 = some (.int entry.2) :=
      fun entry hentry => (lookup_fixed_iff hentry).2 (h entry hentry).2
    refine ⟨hright ("sentence", sentence) (by simp [fixedEntries]), hright ("match", number) (by simp [fixedEntries]),
      hright ("root", m.root) (by simp [fixedEntries]), ?_, ?_⟩
    · intro x hx
      rw [lookup_matchEntries, if_pos hx]
    · intro x hx
      have hnode : x ∉ p.nodeNames := fun hnode => List.disjoint_of_nodup_append hnodup hnode hx
      have hfree : (fixedEntries sentence number m).lookup x = none := by
        rw [Pairs.lookup_eq_none_iff_notMem]
        intro hfixed
        obtain ⟨entry, hentry, rfl⟩ := List.mem_map.1 hfixed
        exact (h entry hentry).1 hx
      rw [lookup_matchEntries, if_neg hnode, hfree, if_pos hx]
      rfl

/-! ## Frames -/

/-- The matches of a pattern in graphs, in their order, each with the number of its sentence, which are counted from the given one on,
and its own number in the sentence. -/
def numberedMatches (p : Pattern) (sentence : Nat) (graphs : List Graph) : List (Nat × Nat × Match) :=
  (graphs.zipIdx sentence).flatMap fun (g, sentence) => (Matcher.plain p g).all.zipIdx.map fun (m, number) => (sentence, number, m)

theorem matchRowsFrom_eq (p : Pattern) (sentence number : Nat) (ms : List Match) :
    matchRowsFrom p sentence number ms = (ms.zipIdx number).map fun (m, number) => matchRow p sentence number m := by
  induction ms generalizing number with
  | nil => rfl
  | cons m ms ih => rw [matchRowsFrom, ih, List.zipIdx_cons, List.map_cons]

/-- The rows of a match frame are those of the matches, in their order. -/
theorem rows_ofMatches (p : Pattern) (graphs : List Graph) (sink : Sink) :
    ((ofMatches p graphs).run sink).1.rows = (numberedMatches p 0 graphs).map fun (sentence, number, m) => matchRow p sentence number m := by
  have hrows : ∀ sentence sink, ((matchRows p sentence graphs).run sink).1 =
      (numberedMatches p sentence graphs).map fun (sentence, number, m) => matchRow p sentence number m := by
    induction graphs with
    | nil => exact fun _ _ => rfl
    | cons g graphs ih =>
      intro sentence sink
      have hrest := ih (sentence + 1) (sink.increment Matcher.foundCounter (Matcher.plain p g).all.length)
      rw [numberedMatches, List.zipIdx_cons, List.flatMap_cons, List.map_append, List.map_map]
      refine congrArg₂ (· ++ ·) (matchRowsFrom_eq p sentence 0 _) hrest
  exact hrows 0 sink

/-- A match frame has columns with different names, and one row for every match, in the order of the graphs and of the matches in each.
Every row says all of its match exactly if at every match the names of the pattern leave the fixed columns as they are. -/
theorem ofMatches_reports_iff {options : PatternOptions} {text : String} {p : Pattern} (hp : Pattern.ofText options text = .ok p)
    (graphs : List Graph) (sink : Sink) :
    let f := ((ofMatches p graphs).run sink).1
    let found := numberedMatches p 0 graphs
    f.names.Nodup ∧ f.rows.length = found.length ∧
      (List.Forall₂ (fun row (sentence, number, m) => Reports p (f.named row) sentence number m) f.rows found ↔
        ∀ q ∈ found, Spares p q.1 q.2.1 q.2.2) := by
  intro f found
  have hrows : f.rows = found.map fun (sentence, number, m) => matchRow p sentence number m := rows_ofMatches p graphs sink
  have hnodup := (Pattern.wellFormed_ofText hp).nodup
  refine ⟨nodup_withColumns (by decide) .., by rw [hrows, List.length_map], ?_⟩
  rw [hrows, List.forall₂_map_left_iff, List.forall₂_same]
  refine forall₂_congr fun q _ => ?_
  have hnamed : f.named (matchRow p q.1 q.2.1 q.2.2) = matchEntries p q.1 q.2.1 q.2.2 := zip_matchRow ..
  simp only [hnamed]
  exact reports_matchEntries_iff hnodup

/-- So it is for a pattern with a name that is left unbound in every other match, and with the name of a column for the token at the
top. -/
theorem ofMatches_reports_iff_optional :
    let graph : Graph :=
      { tokens := [(0, { index := 0 }), (1, { index := 1 }), (2, { index := 2 })]
        arcs := [⟨0, { governor := 0, dependent := 1, relation := "nsubj" }⟩, ⟨1, { governor := 1, dependent := 2, relation := "det" }⟩]
        fresh := 2 }
    ∃ p, Pattern.ofText {} "\x7b\x7d=root >=e \x7b\x7d=x ?>det \x7b\x7d=y" = .ok p ∧
      let f := ((ofMatches p [graph, graph]).run {}).1
      let found := numberedMatches p 0 [graph, graph]
      f.names = ["sentence", "match", "root", "x", "y", "e"] ∧
        f.rows = [[.int 0, .int 0, .int 0, .int 1, .empty, .text "nsubj"], [.int 0, .int 1, .int 1, .int 2, .int 2, .text "det"],
          [.int 1, .int 0, .int 0, .int 1, .empty, .text "nsubj"], [.int 1, .int 1, .int 1, .int 2, .int 2, .text "det"]] ∧
        f.names.Nodup ∧ f.rows.length = found.length ∧
        List.Forall₂ (fun row (sentence, number, m) => Reports p (f.named row) sentence number m) f.rows found := by
  intro graph
  obtain ⟨p, hp, hfacts⟩ := exists_ok_of_map_toOption
    (x := Pattern.ofText {} "\x7b\x7d=root >=e \x7b\x7d=x ?>det \x7b\x7d=y")
    (g := fun p => (((ofMatches p [graph, graph]).run {}).1.names, ((ofMatches p [graph, graph]).run {}).1.rows,
      decide (∀ q ∈ numberedMatches p 0 [graph, graph], Spares p q.1 q.2.1 q.2.2)))
    (b := (["sentence", "match", "root", "x", "y", "e"],
      [[.int 0, .int 0, .int 0, .int 1, .empty, .text "nsubj"], [.int 0, .int 1, .int 1, .int 2, .int 2, .text "det"],
        [.int 1, .int 0, .int 0, .int 1, .empty, .text "nsubj"], [.int 1, .int 1, .int 1, .int 2, .int 2, .text "det"]], true))
    (by decide +kernel)
  simp only [Prod.mk.injEq] at hfacts
  obtain ⟨hnames, hrows, hspares⟩ := hfacts
  obtain ⟨hnodup, hlength, hiff⟩ := ofMatches_reports_iff hp [graph, graph] {}
  exact ⟨p, hp, hnames, hrows, hnodup, hlength, hiff.2 (of_decide_eq_true hspares)⟩

/-- A place of the name `root` takes over the column of the token at the top, which no row says any more. -/
theorem place_takes_root_over :
    let graph : Graph :=
      { tokens := [(0, { index := 0 }), (1, { index := 1 })]
        arcs := [⟨0, { governor := 0, dependent := 1, relation := "x" }⟩]
        fresh := 1 }
    ∃ p, Pattern.ofText {} "\x7b\x7d > \x7b\x7d=root" = .ok p ∧
      let f := ((ofMatches p [graph]).run {}).1
      let found := numberedMatches p 0 [graph]
      f = ⟨[("sentence", .int64), ("match", .int64), ("root", .int64)], [[.int 0, .int 0, .int 1]]⟩ ∧
        found = [(0, 0, { root := 0, bindings := { nodes := [("root", 1)] } })] ∧
        ¬ List.Forall₂ (fun row (sentence, number, m) => Reports p (f.named row) sentence number m) f.rows found := by
  intro graph
  obtain ⟨p, hp, hfacts⟩ := exists_ok_of_map_toOption (x := Pattern.ofText {} "\x7b\x7d > \x7b\x7d=root")
    (g := fun p => (((ofMatches p [graph]).run {}).1, numberedMatches p 0 [graph]))
    (b := (⟨[("sentence", .int64), ("match", .int64), ("root", .int64)], [[.int 0, .int 0, .int 1]]⟩,
      [(0, 0, { root := 0, bindings := { nodes := [("root", 1)] } })])) (by decide +kernel)
  simp only [Prod.mk.injEq] at hfacts
  obtain ⟨hframe, hfound⟩ := hfacts
  refine ⟨p, hp, hframe, hfound, ?_⟩
  rw [hframe, hfound, List.forall₂_cons]
  rintro ⟨hreports, -⟩
  have hroot : some (Cell.int 1) = some (.int 0) := hreports.root
  cases hroot

end Frame

end Treebank
