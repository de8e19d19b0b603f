import Treebank.Proofs.Pattern.Names

/-!
# Names and their mentions

What names that were added one after the other have to do with their mentions. They are the names that are mentioned, each once, in the
order in which they occur first; no name is both that of a token and that of an edge; the first mention of every name stands outside of
all negations; and all descriptions of one token that say something say the same (`tracks_of_register`).
-/

namespace Treebank.Pattern

/-! ## Names in mentions -/

/-- The name that is mentioned. -/
def Mention.name : Mention → String
  | edge name => name
  | node name _ => name

/-- The name that is mentioned, if it is that of a token. -/
def Mention.node? : Mention → Option String
  | edge _ => none
  | node name _ => some name

/-- The name that is mentioned, if it is that of an edge. -/
def Mention.edge? : Mention → Option String
  | edge name => some name
  | node _ _ => none

/-- The names of tokens in mentions. -/
def nodesOf (ms : Mentions) : List String := ms.filterMap fun m => m.2.node?

/-- The names of edges in mentions. -/
def edgesOf (ms : Mentions) : List String := ms.filterMap fun m => m.2.edge?

variable {names names' : Names} {ms ms' : Mentions} {u : Bool} {m : Mention} {x : String}

theorem nodesOf_append : nodesOf (ms ++ ms') = nodesOf ms ++ nodesOf ms' := List.filterMap_append

theorem edgesOf_append : edgesOf (ms ++ ms') = edgesOf ms ++ edgesOf ms' := List.filterMap_append

theorem nodesOf_under (u : Bool) (ms : Mentions) : nodesOf (under u ms) = nodesOf ms := by
  rw [nodesOf, under, List.filterMap_map]
  rfl

theorem mem_nodesOf : x ∈ nodesOf ms ↔ ∃ u d, (u, .node x d) ∈ ms := by
  unfold nodesOf
  rw [List.mem_filterMap]
  constructor
  · rintro ⟨⟨u, m⟩, hm, hx⟩
    cases m with
    | edge name => cases hx
    | node name d =>
      cases hx
      exact ⟨u, d, hm⟩
  · rintro ⟨u, d, hm⟩
    exact ⟨_, hm, rfl⟩

theorem mem_edgesOf : x ∈ edgesOf ms ↔ ∃ u, (u, .edge x) ∈ ms := by
  unfold edgesOf
  rw [List.mem_filterMap]
  constructor
  · rintro ⟨⟨u, m⟩, hm, hx⟩
    cases m with
    | edge name =>
      cases hx
      exact ⟨u, hm⟩
    | node name d => cases hx
  · rintro ⟨u, hm⟩
    exact ⟨_, hm, rfl⟩

/-! ## What adding mentions does -/

/-- A mention adds no name of a token but its own, and that one not under a negation; its own name is there afterwards. -/
theorem keys_addMention (h : names.addMention u m = .ok names') :
    (∀ x ∈ Pairs.keys names'.nodes, x ∈ Pairs.keys names.nodes ∨ (u = false ∧ ∃ d, m = .node x d)) ∧
      ∀ x d, m = .node x d → x ∈ Pairs.keys names'.nodes := by
  cases m with
  | edge name =>
    have hkeys : Pairs.keys names'.nodes = Pairs.keys names.nodes := by
      obtain ⟨-, ⟨-, -, rfl⟩ | ⟨-, rfl⟩⟩ := Names.addEdge_cases h <;> rfl
    rw [hkeys]
    exact ⟨fun x hx => .inl hx, fun x d e => by cases e⟩
  | node name d =>
    obtain ⟨-, ⟨hnone, rfl, rfl⟩ | ⟨previous, hprevious, hcases⟩⟩ := Names.addNode_cases h
    · simp only [Pairs.keys, List.map_append, List.map_cons, List.map_nil, List.mem_append, List.mem_singleton]
      refine ⟨fun x hx => hx.imp_right fun e => ⟨trivial, d, by rw [e]⟩, fun x d' e => ?_⟩
      cases e
      exact .inr rfl
    · have hhas := Pairs.has_of_lookup hprevious
      have hkeys : Pairs.keys names'.nodes = Pairs.keys names.nodes := by
        rcases hcases with ⟨-, rfl⟩ | ⟨-, -, rfl⟩
        · exact Pairs.keys_put_of_has hhas d
        · rfl
      rw [hkeys]
      refine ⟨fun x hx => .inl hx, fun x d' e => ?_⟩
      cases e
      exact Pairs.has_iff_mem.1 hhas

/-- Mentions add no names of tokens but those that are mentioned outside of all negations; all that are mentioned are there
afterwards. -/
theorem keys_register (h : names.register ms = .ok names') :
    (∀ x ∈ Pairs.keys names'.nodes, x ∈ Pairs.keys names.nodes ∨ ∃ d, (false, .node x d) ∈ ms) ∧
      ∀ x ∈ nodesOf ms, x ∈ Pairs.keys names'.nodes := by
  induction ms generalizing names with
  | nil =>
    cases h
    exact ⟨fun x hx => .inl hx, by simp [nodesOf]⟩
  | cons m ms ih =>
    obtain ⟨u, m⟩ := m
    obtain ⟨names₁, hadd, hrest⟩ := bind_eq_ok_iff.1 h
    obtain ⟨honly, hown⟩ := keys_addMention hadd
    obtain ⟨honly', hall⟩ := ih hrest
    refine ⟨fun x hx => ?_, fun x hx => ?_⟩
    · rcases honly' x hx with hx | ⟨d, hd⟩
      · refine (honly x hx).imp_right ?_
        rintro ⟨rfl, d, rfl⟩
        exact ⟨d, List.mem_cons_self ..⟩
      · exact .inr ⟨d, List.mem_cons_of_mem _ hd⟩
    · obtain ⟨u', d, hd⟩ := mem_nodesOf.1 hx
      rcases List.mem_cons.1 hd with e | hd
      · have hkept := (extends_register_under (u := false) (by rw [under_false]; exact hrest)).1.nodes
        cases e
        exact hkept.subset (hown x d rfl)
      · exact hall x (mem_nodesOf.2 ⟨u', d, hd⟩)

/-! ## Names that keep track of mentions -/

/-- Names that are those of some mentions. -/
structure Names.Tracks (names : Names) (ms : Mentions) : Prop where
  /-- The names of tokens, each once, in the order in which they occur first. -/
  nodes : Pairs.keys names.nodes = (nodesOf ms).eraseDups
  /-- The names of edges, each once, in the order in which they occur first. -/
  edges : names.edges = (edgesOf ms).eraseDups
  /-- No name is both. -/
  apart : ∀ x ∈ nodesOf ms, x ∉ edgesOf ms
  /-- The first mention of a name is outside of all negations. -/
  first : ∀ x m, ms.find? (·.2.name == x) = some m → m.1 = false
  /-- A description that is mentioned is blank, or says what the one that is kept says. -/
  described : ∀ x d, names.nodes.lookup x = some d → ∀ u d', (u, .node x d') ∈ ms → d'.isBlank = false →
    d.isBlank = false ∧ d'.text = d.text

theorem tracks_nil : ({} : Names).Tracks [] where
  nodes := rfl
  edges := rfl
  apart := by simp [nodesOf]
  first := by simp
  described := by simp

/-- A name is one of tokens exactly if it is mentioned as one. -/
theorem Names.Tracks.mem_nodes_iff (h : names.Tracks ms) : x ∈ Pairs.keys names.nodes ↔ x ∈ nodesOf ms := by
  rw [h.nodes, List.mem_eraseDups]

/-- A name is one of edges exactly if it is mentioned as one. -/
theorem Names.Tracks.mem_edges_iff (h : names.Tracks ms) : x ∈ names.edges ↔ x ∈ edgesOf ms := by
  rw [h.edges, List.mem_eraseDups]

/-- One more mention leaves the first mentions outside of negations, if it is so itself or is not the first one of its name. -/
theorem Names.Tracks.first_concat (h : names.Tracks ms) (hm : u = false ∨ m.name ∈ nodesOf ms ∨ m.name ∈ edgesOf ms) :
    ∀ x m', (ms ++ [(u, m)]).find? (·.2.name == x) = some m' → m'.1 = false := by
  intro x m' hfind
  rw [List.find?_append, Option.or_eq_some_iff] at hfind
  rcases hfind with hfind | ⟨hnone, hfind⟩
  · exact h.first x m' hfind
  · obtain ⟨hname, hin⟩ : m.name = x ∧ (u, m) = m' := by simpa [List.find?_cons_eq_some] using hfind
    have hnew : ∀ m'' ∈ ms, m''.2.name ≠ x := fun m'' hin e => List.find?_eq_none.1 hnone m'' hin (by simp [e])
    rcases hm with rfl | hm | hm
    · rw [← hin]
    · obtain ⟨u', d, hmem⟩ := mem_nodesOf.1 hm
      exact absurd hname (hnew _ hmem)
    · obtain ⟨u', hmem⟩ := mem_edgesOf.1 hm
      exact absurd hname (hnew _ hmem)

section Concat

variable {d : Description}

theorem nodesOf_concat_node : nodesOf (ms ++ [(u, .node x d)]) = nodesOf ms ++ [x] := nodesOf_append

theorem edgesOf_concat_node : edgesOf (ms ++ [(u, .node x d)]) = edgesOf ms := by
  rw [edgesOf_append]
  exact List.append_nil _

theorem nodesOf_concat_edge : nodesOf (ms ++ [(u, .edge x)]) = nodesOf ms := by
  rw [nodesOf_append]
  exact List.append_nil _

theorem edgesOf_concat_edge : edgesOf (ms ++ [(u, .edge x)]) = edgesOf ms ++ [x] := edgesOf_append

/-- A token that has not the name of an edge leaves the names of tokens and edges apart. -/
theorem Names.Tracks.apart_node (h : names.Tracks ms) (hx : x ∉ names.edges) :
    ∀ y ∈ nodesOf (ms ++ [(u, .node x d)]), y ∉ edgesOf (ms ++ [(u, .node x d)]) := by
  rw [nodesOf_concat_node, edgesOf_concat_node]
  intro y hy
  rcases List.mem_append.1 hy with hy | hy
  · exact h.apart y hy
  · rw [List.mem_singleton.1 hy]
    exact mt h.mem_edges_iff.2 hx

/-- An edge that has not the name of a token leaves the names of tokens and edges apart. -/
theorem Names.Tracks.apart_edge (h : names.Tracks ms) (hx : names.nodes.lookup x = none) :
    ∀ y ∈ nodesOf (ms ++ [(u, .edge x)]), y ∉ edgesOf (ms ++ [(u, .edge x)]) := by
  rw [nodesOf_concat_edge, edgesOf_concat_edge]
  intro y hy hy'
  rcases List.mem_append.1 hy' with hy' | hy'
  · exact h.apart y hy hy'
  · rw [List.mem_singleton.1 hy'] at hy
    exact Pairs.lookup_eq_none_iff_notMem.1 hx (h.mem_nodes_iff.2 hy)

/-- The mentions of a name that was there say what is kept of it: the old description, or another one where that was blank. -/
theorem Names.Tracks.described_concat (h : names.Tracks ms) {y : String} {d₀ d₁ : Description} (hy : names.nodes.lookup y = some d₀)
    (hkept : d₀.isBlank = false → d₁ = d₀) (hnew : y = x → d.isBlank = false → d₁.isBlank = false ∧ d.text = d₁.text) :
    ∀ u' d', (u', .node y d') ∈ ms ++ [(u, .node x d)] → d'.isBlank = false → d₁.isBlank = false ∧ d'.text = d₁.text := by
  intro u' d' hm hblank
  rcases List.mem_append.1 hm with hm | hm
  · obtain ⟨hd, htext⟩ := h.described y d₀ hy u' d' hm hblank
    rw [hkept hd]
    exact ⟨hd, htext⟩
  · obtain ⟨-, rfl, rfl⟩ : u' = u ∧ y = x ∧ d' = d := by simpa using hm
    exact hnew rfl hblank

/-- The first mention of a token adds its name. -/
theorem Names.Tracks.addNode_new (h : names.Tracks ms) (hedge : x ∉ names.edges) (hnone : names.nodes.lookup x = none)
    (hu : u = false) : ({ names with nodes := names.nodes ++ [(x, d)] } : Names).Tracks (ms ++ [(u, .node x d)]) := by
  have hnew : x ∉ nodesOf ms := mt h.mem_nodes_iff.2 (Pairs.lookup_eq_none_iff_notMem.1 hnone)
  refine { nodes := ?nodes, edges := by rw [edgesOf_concat_node]; exact h.edges, apart := h.apart_node hedge
           first := h.first_concat (.inl hu), described := ?described }
  case nodes =>
    rw [nodesOf_concat_node, Pairs.eraseDups_concat, if_neg (by simpa using hnew), ← h.nodes]
    simp [Pairs.keys]
  case described =>
    intro y d₁ hy
    rw [List.lookup_append, Option.or_eq_some_iff] at hy
    rcases hy with hy | ⟨-, hy⟩
    · refine h.described_concat hy (fun _ => rfl) ?_
      rintro rfl
      rw [hnone] at hy
      cases hy
    · obtain ⟨rfl, rfl⟩ : y = x ∧ d = d₁ := by simpa [Pairs.lookup_cons_eq] using hy
      intro u' d' hm hblank
      rcases List.mem_append.1 hm with hm | hm
      · exact absurd (mem_nodesOf.2 ⟨u', d', hm⟩) hnew
      · obtain ⟨-, rfl⟩ : u' = u ∧ d' = d := by simpa using hm
        exact ⟨hblank, rfl⟩

/-- A token that is mentioned is added to the names. -/
theorem Names.Tracks.addNode (h : names.Tracks ms) (hadd : names.addNode u x d = .ok names') :
    names'.Tracks (ms ++ [(u, .node x d)]) := by
  obtain ⟨hedge, hcases⟩ := Names.addNode_cases hadd
  rcases hcases with ⟨hnone, hu, rfl⟩ | ⟨previous, hprevious, hcases⟩
  · exact h.addNode_new hedge hnone hu
  have hmem : x ∈ nodesOf ms := h.mem_nodes_iff.1 (Pairs.has_iff_mem.1 (Pairs.has_of_lookup hprevious))
  have hkeys : (nodesOf (ms ++ [(u, .node x d)])).eraseDups = Pairs.keys names.nodes := by
    rw [nodesOf_concat_node, Pairs.eraseDups_concat, if_pos (by simpa using hmem), h.nodes]
  have hedges : names.edges = (edgesOf (ms ++ [(u, .node x d)])).eraseDups := by rw [edgesOf_concat_node]; exact h.edges
  have hfirst := h.first_concat (u := u) (m := .node x d) (.inr (.inl hmem))
  rcases hcases with ⟨hblank, rfl⟩ | ⟨hblank, hsame, rfl⟩
  · refine ⟨?_, hedges, h.apart_node hedge, hfirst, fun y d₁ hy => ?_⟩
    · rw [hkeys]
      exact Pairs.keys_put_of_has (Pairs.has_of_lookup hprevious) d
    · rw [Pairs.lookup_put] at hy
      split at hy
      · rename_i e
        cases hy
        obtain rfl := eq_of_beq e
        exact h.described_concat hprevious (fun hd => by rw [hblank] at hd; cases hd) fun _ hd => ⟨hd, rfl⟩
      · rename_i hne
        exact h.described_concat hy (fun _ => rfl) fun e => absurd (beq_iff_eq.2 e) hne
  · refine ⟨hkeys.symm, hedges, h.apart_node hedge, hfirst, fun y d₁ hy => h.described_concat hy (fun _ => rfl) ?_⟩
    rintro rfl hd
    rw [hprevious] at hy
    cases hy
    exact ⟨hblank, hsame hd⟩

/-- An edge that is mentioned is added to the names. -/
theorem Names.Tracks.addEdge (h : names.Tracks ms) (hadd : names.addEdge u x = .ok names') :
    names'.Tracks (ms ++ [(u, .edge x)]) := by
  obtain ⟨hnode, hcases⟩ := Names.addEdge_cases hadd
  have hnodes : Pairs.keys names.nodes = (nodesOf (ms ++ [(u, .edge x)])).eraseDups := by rw [nodesOf_concat_edge]; exact h.nodes
  have hdescribed : ∀ y d, names.nodes.lookup y = some d → ∀ u' d', (u', .node y d') ∈ ms ++ [(u, .edge x)] →
      d'.isBlank = false → d.isBlank = false ∧ d'.text = d.text := by
    intro y d hy u' d' hm
    have hm : (u', .node y d') ∈ ms := by simpa using hm
    exact h.described y d hy u' d' hm
  rcases hcases with ⟨hnew, hu, rfl⟩ | ⟨hknown, rfl⟩
  · refine ⟨hnodes, ?_, h.apart_edge hnode, h.first_concat (.inl hu), hdescribed⟩
    rw [edgesOf_concat_edge, Pairs.eraseDups_concat, if_neg (by simpa using mt h.mem_edges_iff.2 hnew), ← h.edges]
  · have hmem := h.mem_edges_iff.1 hknown
    refine ⟨hnodes, ?_, h.apart_edge hnode, h.first_concat (.inr (.inr hmem)), hdescribed⟩
    rw [edgesOf_concat_edge, Pairs.eraseDups_concat, if_pos (by simpa using hmem), h.edges]

end Concat

/-- Names that were added one after the other keep track of their mentions. -/
theorem tracks_of_register (h : ({} : Names).register ms = .ok names) : names.Tracks ms := by
  induction ms using List.reverseRecOn generalizing names with
  | nil =>
    cases h
    exact tracks_nil
  | append_singleton ms m ih =>
    obtain ⟨names₁, hms, hm⟩ := register_append_eq_ok_iff.1 h
    rw [register_singleton] at hm
    obtain ⟨u, m⟩ := m
    cases m with
    | edge name => exact (ih hms).addEdge hm
    | node name d => exact (ih hms).addNode hm

/-! ## What follows for the names -/

/-- No name stands twice. -/
theorem Names.Tracks.nodup (h : names.Tracks ms) : (Pairs.keys names.nodes ++ names.edges).Nodup := by
  refine List.nodup_append.2 ⟨h.nodes ▸ Pairs.nodup_eraseDups _, h.edges ▸ Pairs.nodup_eraseDups _, ?_⟩
  rintro x hx y hy rfl
  exact h.apart x (h.mem_nodes_iff.1 hx) (h.mem_edges_iff.1 hy)

/-- The first mention of a name is one outside of all negations. -/
theorem Names.Tracks.exists_unnegated (h : names.Tracks ms) {m : Bool × Mention} (hm : m ∈ ms) :
    ∃ m', (false, m') ∈ ms ∧ m'.name = m.2.name := by
  have hsome : (ms.find? (·.2.name == m.2.name)).isSome := List.find?_isSome.2 ⟨m, hm, beq_self_eq_true _⟩
  obtain ⟨⟨u, m'⟩, hfind⟩ := Option.isSome_iff_exists.1 hsome
  obtain rfl := h.first _ _ hfind
  have hname := List.find?_some hfind
  exact ⟨m', List.mem_of_find?_eq_some hfind, eq_of_beq hname⟩

/-- The name of a token is mentioned as one outside of all negations. -/
theorem Names.Tracks.exists_node (h : names.Tracks ms) (hx : x ∈ nodesOf ms) : ∃ d, (false, .node x d) ∈ ms := by
  obtain ⟨u, d, hm⟩ := mem_nodesOf.1 hx
  obtain ⟨m, hm', hname⟩ := h.exists_unnegated hm
  cases m with
  | edge y =>
    obtain rfl : y = x := hname
    exact absurd (mem_edgesOf.2 ⟨false, hm'⟩) (h.apart y hx)
  | node y d' =>
    obtain rfl : y = x := hname
    exact ⟨d', hm'⟩

/-- The name of an edge is mentioned as one outside of all negations. -/
theorem Names.Tracks.exists_edge (h : names.Tracks ms) (hx : x ∈ edgesOf ms) : (false, .edge x) ∈ ms := by
  obtain ⟨u, hm⟩ := mem_edgesOf.1 hx
  obtain ⟨m, hm', hname⟩ := h.exists_unnegated hm
  cases m with
  | edge y =>
    obtain rfl : y = x := hname
    exact hm'
  | node y d =>
    obtain rfl : y = x := hname
    exact absurd hx (h.apart y (mem_nodesOf.2 ⟨false, d, hm'⟩))

/-- Descriptions of one token that say something say the same. -/
theorem Names.Tracks.text_eq (h : names.Tracks ms) {u u' : Bool} {d d' : Description} (hd : (u, .node x d) ∈ ms)
    (hd' : (u', .node x d') ∈ ms) (hblank : d.isBlank = false) (hblank' : d'.isBlank = false) : d.text = d'.text := by
  have hkey := h.mem_nodes_iff.2 (mem_nodesOf.2 ⟨u, d, hd⟩)
  obtain ⟨kept, hkept⟩ := Option.isSome_iff_exists.1 (Pairs.isSome_lookup_iff.2 hkey)
  rw [(h.described x kept hkept u d hd hblank).2, (h.described x kept hkept u' d' hd' hblank').2]

end Treebank.Pattern
