import Treebank.Graph.CompactReader
import Treebank.Proofs.Graph.Built

/-!
# Phrases of the compact form

A text in compact form that has neither tags nor indices is a sequence of phrases (`Phrase`), each a word with its dependents. Reading
numbers the words as they come: the graph that is read has the words as its tokens, `0`, `1`, `2` and so on, an edge from every word to
the words of the phrases in its brackets, and a root for every phrase on the outside (`drawn`).
-/

namespace Treebank.Graph

/-- A phrase: a word, and its dependents with the relations by which they hang from it. -/
inductive Phrase where
  | mk (word : List Char) (branches : List (List Char × Phrase))

namespace Phrase

/-! ## Texts -/

/-- Whether a text can stand as a relation: it is not empty, and holds neither brackets nor arrows nor blanks. -/
def IsName (cs : List Char) : Prop := cs ≠ [] ∧ ∀ c ∈ cs, c ∉ ['[', ']', '>'] ∧ Text.isBlank c = false

instance (cs : List Char) : Decidable (IsName cs) :=
  haveI := List.decidableBAll (fun c => c ∉ ['[', ']', '>'] ∧ Text.isBlank c = false) cs
  inferInstanceAs (Decidable (_ ∧ _))

/-- Whether a text can stand as a word and means nothing but itself: it has no tag behind a slash and no index behind a hyphen. -/
structure IsWord (cs : List Char) : Prop where
  name : IsName cs
  slash : '/' ∉ cs
  index : ∀ head digits, cs = head ++ '-' :: digits → head ≠ [] → digits ≠ [] → ∃ c ∈ digits, Text.isAsciiDigit c = false

mutual
/-- The text of a phrase: a word without dependents stands alone, one with dependents begins a bracket. -/
def chars : Phrase → List Char
  | mk word branches => if branches.isEmpty then word else '[' :: word ++ branchChars branches ++ [']']

/-- The text of the dependents in a bracket. -/
def branchChars : List (List Char × Phrase) → List Char
  | [] => []
  | (relation, phrase) :: rest => ' ' :: relation ++ '>' :: chars phrase ++ branchChars rest
end

mutual
/-- Whether the words and relations of a phrase can stand as such. -/
def IsCanonical : Phrase → Prop
  | mk word branches => IsWord word ∧ AreCanonical branches

/-- Whether the relations in a bracket, and the words and relations of its phrases, can stand as such. -/
def AreCanonical : List (List Char × Phrase) → Prop
  | [] => True
  | (relation, phrase) :: rest => IsName relation ∧ IsCanonical phrase ∧ AreCanonical rest
end

/-! ## What a phrase stands for -/

mutual
/-- The words of a phrase as they come. -/
def words : Phrase → List (List Char)
  | mk word branches => word :: branchWords branches

/-- The words in a bracket behind the first. -/
def branchWords : List (List Char × Phrase) → List (List Char)
  | [] => []
  | (_, phrase) :: rest => words phrase ++ branchWords rest
end

mutual
/-- The edges in a phrase as they come, if its first word is token `n`. -/
def edges (n : Nat) : Phrase → List Edge
  | mk _ branches => branchEdges n (n + 1) branches

/-- The edges in the bracket of token `governor`, if the first word of its first phrase is token `n`. -/
def branchEdges (governor n : Nat) : List (List Char × Phrase) → List Edge
  | [] => []
  | (relation, phrase) :: rest =>
    { governor := governor, dependent := n, relation := String.ofList relation } :: edges n phrase ++
      branchEdges governor (n + (words phrase).length) rest
end

/-- The words of phrases as they come. -/
def allWords (phrases : List Phrase) : List (List Char) := phrases.flatMap words

/-- The edges in phrases as they come, if the first word of the first one is token `n`. -/
def allEdges (n : Nat) : List Phrase → List Edge
  | [] => []
  | phrase :: phrases => phrase.edges n ++ allEdges (n + phrase.words.length) phrases

/-- The tokens of the first words of phrases, if the first word of the first one is token `n`. -/
def starts (n : Nat) : List Phrase → List Int
  | [] => []
  | phrase :: phrases => (n : Int) :: starts (n + phrase.words.length) phrases

/-- A phrase has a word. -/
theorem length_words_pos (phrase : Phrase) : 0 < phrase.words.length := by
  cases phrase with
  | mk word branches => simp [words]

mutual
/-- The edges in a phrase lead from its words to words behind the first. -/
theorem of_mem_edges (phrase : Phrase) {n : Nat} {e : Edge} (he : e ∈ phrase.edges n) :
    ((n : Int) ≤ e.governor ∧ e.governor < (n + phrase.words.length : Nat)) ∧
      (n : Int) < e.dependent ∧ e.dependent < (n + phrase.words.length : Nat) := by
  cases phrase with
  | mk word branches =>
    rw [edges] at he
    have hends := of_mem_branchEdges branches he
    simp only [words, List.length_cons]
    omega

/-- The edges in a bracket lead to its words, from these and the one that opens it. -/
theorem of_mem_branchEdges (branches : List (List Char × Phrase)) {governor n : Nat} {e : Edge}
    (he : e ∈ branchEdges governor n branches) :
    (e.governor = governor ∨ (n : Int) ≤ e.governor ∧ e.governor < (n + (branchWords branches).length : Nat)) ∧
      (n : Int) ≤ e.dependent ∧ e.dependent < (n + (branchWords branches).length : Nat) := by
  cases branches with
  | nil => cases he
  | cons branch rest =>
    obtain ⟨relation, phrase⟩ := branch
    have hpos := length_words_pos phrase
    rw [branchEdges, List.cons_append, List.mem_cons, List.mem_append] at he
    simp only [branchWords, List.length_append]
    rcases he with rfl | he | he
    · simp only [true_or, true_and]
      omega
    · have hends := of_mem_edges phrase he
      omega
    · have hends := of_mem_branchEdges rest he
      omega
end

/-- A phrase does not begin with a blank. -/
theorem chars_eq_cons {phrase : Phrase} (h : phrase.IsCanonical) : ∃ c rest, phrase.chars = c :: rest ∧ Text.isBlank c = false := by
  cases phrase with
  | mk word branches =>
    rw [IsCanonical] at h
    obtain ⟨c, rest, rfl⟩ := List.exists_cons_of_ne_nil h.1.name.1
    rw [chars]
    split
    · exact ⟨c, rest, rfl, (h.1.name.2 c (List.mem_cons_self ..)).2⟩
    · exact ⟨'[', _, rfl, by decide⟩

end Phrase

/-! ## Drawn graphs -/

/-- The token of a word, under its number. -/
def wordEntry (p : List Char × Nat) : Int × Token := (p.2, { index := p.2, word := String.ofList p.1 })

/-- The graph with these words as its tokens, numbered as they come, with edges in the order in which they were added, and with
roots. -/
def drawn (words : List (List Char)) (edges : List Edge) (roots : List Int) : Graph where
  tokens := words.zipIdx.map wordEntry
  arcs := (arcsFrom 0 edges).reverse
  fresh := edges.length
  roots := roots

/-- The numbers from `n` on, `count` of them. -/
def span (n count : Nat) : List Int := (List.range' n count).map Int.ofNat

/-- The first number of some. -/
theorem span_succ (n count : Nat) : span n (count + 1) = (n : Int) :: span (n + 1) count := by
  rw [span, List.range'_succ]
  rfl

/-- The numbers from `n` on are those that are at least `n` and less than the one behind them. -/
theorem mem_span {n count : Nat} {i : Int} : i ∈ span n count ↔ (n : Int) ≤ i ∧ i < n + count := by
  rw [span, List.mem_map]
  constructor
  · rintro ⟨k, hk, rfl⟩
    have := List.mem_range'_1.1 hk
    show (n : Int) ≤ (k : Int) ∧ (k : Int) < n + count
    omega
  · rintro ⟨hle, hlt⟩
    refine ⟨i.toNat, List.mem_range'_1.2 (by omega), ?_⟩
    show ((i.toNat : Nat) : Int) = i
    omega

/-- Numbers from `n` on ascend. -/
theorem pairwise_span (n count : Nat) : (span n count).Pairwise (· < ·) := by
  have hlt : (List.range' n count).Pairwise (· < ·) := List.pairwise_lt_range'
  exact List.pairwise_map.2 (hlt.imp fun h => Int.ofNat_lt.2 h)

/-- Edges one after the other in consecutive slots. -/
theorem arcsFrom_append (slot : Nat) (es fs : List Edge) : arcsFrom slot (es ++ fs) = arcsFrom slot es ++ arcsFrom (slot + es.length) fs := by
  induction es generalizing slot with
  | nil => rfl
  | cons e es ih => rw [List.cons_append, arcsFrom, ih, arcsFrom, List.length_cons, Nat.add_right_comm, Nat.add_assoc]; rfl

/-- A new entry goes to the end if its index is above all others. -/
theorem putEntry_of_lt {α : Type} {index : Int} {l : List (Int × α)} (h : ∀ p ∈ l, p.1 < index) (a : α) :
    putEntry index a l = l ++ [(index, a)] := by
  induction l with
  | nil => rfl
  | cons p l ih =>
    obtain ⟨i, b⟩ := p
    obtain ⟨hi, hl⟩ := List.forall_mem_cons.1 h
    rw [putEntry, if_neg (by simp only at hi; omega), ih hl, List.cons_append]

/-- A number above all others goes to the end. -/
theorem add_of_lt {n : Int} {ns : List Int} (h : ∀ m ∈ ns, m < n) : Order.add n ns = ns ++ [n] := by
  induction ns with
  | nil => rfl
  | cons m ns ih =>
    obtain ⟨hm, hns⟩ := List.forall_mem_cons.1 h
    rw [Order.add, if_neg (by omega), if_neg (by omega), ih hns, List.cons_append]

section Drawn

variable {words : List (List Char)} {edges : List Edge} {roots : List Int}

/-- The indices of a drawn graph are the numbers of its words. -/
theorem indices_drawn (words : List (List Char)) (edges : List Edge) (roots : List Int) :
    (drawn words edges roots).indices = span 0 words.length := by
  show (words.zipIdx.map wordEntry).map (·.1) = _
  rw [span, ← List.zipIdx_map_snd, List.map_map, List.map_map]
  rfl

/-- A number belongs to a word exactly if it is less than the number of words. -/
theorem hasToken_drawn {n : Nat} : (drawn words edges roots).hasToken n ↔ n < words.length := by
  rw [hasToken_iff, indices_drawn, mem_span]
  omega

/-- The token of a number is that of the word at this place. -/
theorem token?_drawn {n : Nat} {word : List Char} (h : words[n]? = some word) :
    (drawn words edges roots).token? n = some (wordEntry (word, n)).2 := by
  have hkeys : ((drawn words edges roots).tokens.map (·.1)).Nodup := by
    have hascends := pairwise_span 0 words.length
    rw [← indices_drawn words edges roots] at hascends
    exact nodup_of_ascending hascends
  refine (Pairs.lookup_eq_some_iff_mem hkeys).2 (List.mem_map.2 ⟨(word, n), ?_, rfl⟩)
  rw [List.mem_iff_getElem?]
  exact ⟨n, by rw [List.getElem?_zipIdx, h]; simp⟩

/-- A new word becomes the token behind the others. -/
theorem withToken_drawn (words : List (List Char)) (edges : List Edge) (roots : List Int) (word : List Char) :
    (drawn words edges roots).withToken (wordEntry (word, words.length)).2 = drawn (words ++ [word]) edges roots := by
  have hnew : (drawn words edges roots).hasToken (wordEntry (word, words.length)).2.index = false := by
    refine Bool.eq_false_iff.2 fun h => ?_
    exact Nat.lt_irrefl _ (hasToken_drawn.1 h)
  have hlast : ∀ p ∈ (drawn words edges roots).tokens, p.1 < (words.length : Int) := by
    intro p hp
    have hp : p.1 ∈ (drawn words edges roots).indices := List.mem_map_of_mem hp
    rw [indices_drawn, mem_span] at hp
    omega
  have hput := putEntry_of_lt hlast (wordEntry (word, words.length)).2
  have htokens : (words ++ [word]).zipIdx.map wordEntry = words.zipIdx.map wordEntry ++ [wordEntry (word, words.length)] := by
    rw [List.zipIdx_append, List.map_append, Nat.zero_add]
    rfl
  rw [withToken_eq hnew]
  refine (congrArg (fun tokens => { drawn words edges roots with tokens := tokens }) hput).trans ?_
  rw [drawn, drawn, htokens]
  rfl

/-- A new edge between words is added behind the others, if all of them lead to words before the one to which it leads. -/
theorem withEdge_drawn {e : Edge} {governor n : Nat} (hgovernor : e.governor = governor) (hdependent : e.dependent = n)
    (hends : governor < words.length ∧ n < words.length) (hedges : ∀ f ∈ edges, f.dependent < n) :
    (drawn words edges roots).withEdge e = drawn words (edges ++ [e]) roots := by
  have hnew : (drawn words edges roots).contains e = false := by
    refine List.any_eq_false.2 fun a ha hs => ?_
    have he := List.mem_map_of_mem (f := Arc.edge) (List.mem_reverse.1 ha)
    rw [map_edge_arcsFrom] at he
    have := hedges _ he
    rw [(Edge.ends_of_same hs).2] at this
    omega
  rw [withEdge_eq rfl ⟨by rw [hgovernor]; exact hasToken_drawn.2 hends.1, by rw [hdependent]; exact hasToken_drawn.2 hends.2⟩ hnew,
    drawn, drawn, arcsFrom_append]
  simp [arcsFrom]

/-- A word is made a root behind the others, if all of them stand before it. -/
theorem withRoot_drawn {n : Nat} (hn : n < words.length) (hroots : ∀ r ∈ roots, r < n) :
    (drawn words edges roots).withRoot n = drawn words edges (roots ++ [(n : Int)]) := by
  rw [withRoot, addRoot, if_pos (hasToken_drawn.2 hn)]
  show { drawn words edges roots with roots := Order.add n roots } = _
  rw [add_of_lt hroots]
  rfl

end Drawn

end Treebank.Graph
