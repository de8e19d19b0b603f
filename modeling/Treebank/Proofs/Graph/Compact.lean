import Treebank.Graph.Compact
import Treebank.Proofs.Graph.Drawn
import Treebank.Proofs.Text.Pieces

/-!
# The compact form read and written

A text of phrases is read as the graph that draws them (`ofCompact_chars`), and the graph is written as the text
(`compact_drawn`): dependents come in the order of their places, which is the order in which they were read, and no token is met
twice. So a text that has neither tags nor indices is what is written of the graph that is read from it (`compact_ofCompact`).
-/

namespace Treebank.Graph

open Phrase

/-! ## Reading -/

section Reading

variable {words : List (List Char)} {edges : List Edge} {roots : List Int} {word relation rest : List Char}

/-- Text into which no name runs. -/
def EndsName (rest : List Char) : Prop := ∀ c ∈ rest.head?, isNameChar c = false

/-- What can stand as a name is made of the characters of names. -/
theorem isNameChar_of_isName {cs : List Char} (h : IsName cs) {c : Char} (hc : c ∈ cs) : isNameChar c = true := by
  obtain ⟨hmark, hblank⟩ := h.2 c hc
  simp only [List.mem_cons, List.not_mem_nil, or_false, not_or] at hmark
  have hne : ∀ b, Text.isBlank b = true → c ≠ b := by
    rintro b hb rfl
    rw [hblank] at hb
    cases hb
  simp [isNameChar, hmark, hne ' ' (by decide), hne '\t' (by decide), hne '\r' (by decide), hne '\n' (by decide)]

/-- A name is read up to its end. -/
theorem takeName_append (size : Nat) {name : List Char} (h : IsName name) (hrest : EndsName rest) :
    takeName size (name ++ rest) = .ok (name, rest) := by
  have hname : ∀ c ∈ name, isNameChar c = true := fun c hc => isNameChar_of_isName h hc
  unfold takeName
  rw [Text.takeWhile_append_of_head hname hrest, Text.dropWhile_append_of_head hname hrest, if_neg (by simpa using h.1)]

/-- The least number that is missing behind consecutive numbers is the next one. -/
theorem leastGap_span (n count : Nat) : leastGap n (span n count) = (n + count : Nat) := by
  induction count generalizing n with
  | zero => rfl
  | succ count ih =>
    rw [span_succ, leastGap, if_neg (Int.lt_irrefl _), if_pos rfl]
    have hnext := ih (n + 1)
    rw [Nat.add_right_comm] at hnext
    exact hnext

/-- A word that means nothing but itself is made the token behind the others. -/
theorem vertex_drawn (hw : IsWord word) :
    (drawn words edges roots).vertex word = (drawn (words ++ [word]) edges roots, (words.length : Int)) := by
  have hindex : splitIndex word = (word, none) := by
    unfold splitIndex
    cases hs : Text.splitLast? '-' word with
    | none => rfl
    | some p =>
      obtain ⟨head, digits⟩ := p
      obtain ⟨rfl, -⟩ := Text.of_splitLast?_eq_some hs
      refine if_pos ?_
      by_cases hhead : head = []
      · simp [hhead]
      · by_cases hdigits : digits = []
        · simp [hdigits]
        · obtain ⟨c, hc, hne⟩ := hw.index head digits rfl hhead hdigits
          have hall : digits.all Text.isAsciiDigit = false := List.all_eq_false.2 ⟨c, hc, by simp [hne]⟩
          simp [hall]
  have htag : splitTag word = (word, []) := by
    rw [splitTag, Text.splitLast?_eq_none_iff.2 hw.slash]
  have hgap : leastGap 0 (drawn words edges roots).indices = words.length := by
    rw [indices_drawn]
    exact (leastGap_span 0 words.length).trans (by rw [Nat.zero_add])
  unfold vertex
  rw [hindex]
  simp only [htag, Option.map_none, Option.getD_none, hgap]
  rw [← withToken_drawn]
  rfl

/-! ### Steps -/

variable {size : Nat} {g : Graph} {index : Int} {outer : List Int} {cs text after : List Char} {c : Char} {d : Draft}

/-- Reading ends behind the last phrase. -/
theorem takeItems_end (size : Nat) (g : Graph) : takeItems size ⟨g, []⟩ [] = .ok g := takeItems_eq size ⟨g, []⟩ []

/-- Outside all brackets a word is read. -/
theorem takeItems_root (hcs : Text.trimStart cs = c :: text) (hword : takeVertex size ⟨g, []⟩ none (c :: text) = .ok (d, rest)) :
    takeItems size ⟨g, []⟩ cs = takeItems size d rest := by
  rw [takeItems_eq, hcs]
  exact congrArg (· >>= _) hword

/-- A closing bracket closes the innermost one that is open. -/
theorem takeItems_close : takeItems size ⟨g, index :: outer⟩ (']' :: text) = takeItems size ⟨g, outer⟩ text := by
  have hcs : Text.trimStart (']' :: text) = ']' :: text := List.dropWhile_cons_of_neg (by decide)
  rw [takeItems_eq, hcs]
  exact if_pos rfl

/-- Inside a bracket a relation is read, and the word behind its arrow. -/
theorem takeItems_branch (hcs : Text.trimStart cs = c :: text) (hc : c ≠ ']')
    (hname : takeName size (c :: text) = .ok (relation, '>' :: after))
    (hword : takeVertex size ⟨g, index :: outer⟩ (some (index, String.ofList relation)) after = .ok (d, rest)) :
    takeItems size ⟨g, index :: outer⟩ cs = takeItems size d rest := by
  rw [takeItems_eq, hcs]
  simp only [hc, if_false, hname, hword, bind, Except.bind]

/-! ### Phrases -/

/-- The edge by which token `n` hangs, if it does. -/
def hung (n : Nat) : Attachment → List Edge
  | none => []
  | some (governor, relation) => [{ governor := governor, dependent := n, relation := relation }]

/-- Token `n`, if it does not hang. -/
def addedRoots (n : Nat) : Attachment → List Int
  | none => [(n : Int)]
  | some _ => []

/-- The last word is attached behind all that was attached before. -/
theorem attach_drawn {place : Attachment} (hplace : ∀ p ∈ place, ∃ k : Nat, p.1 = k ∧ k < words.length)
    (hedges : ∀ e ∈ edges, e.dependent < words.length) (hroots : place = none → ∀ r ∈ roots, r < words.length) (word : List Char) :
    (drawn (words ++ [word]) edges roots).attach words.length place =
      drawn (words ++ [word]) (edges ++ hung words.length place) (roots ++ addedRoots words.length place) := by
  have hlength : (words ++ [word]).length = words.length + 1 := by simp
  cases place with
  | none =>
    rw [attach, withRoot_drawn (by omega) (hroots rfl), hung, List.append_nil]
    rfl
  | some p =>
    obtain ⟨k, hgovernor, hk⟩ := hplace p rfl
    have hedge : (drawn (words ++ [word]) edges roots).withEdge { governor := p.1, dependent := words.length, relation := p.2 } =
        drawn (words ++ [word]) (edges ++ [{ governor := p.1, dependent := words.length, relation := p.2 }]) roots :=
      withEdge_drawn hgovernor rfl (by omega) hedges
    rw [addedRoots, List.append_nil]
    exact hedge

/-- A word is read without a bracket. -/
theorem takeVertex_word (size : Nat) (opened : List Int) {place : Attachment} (hword : IsWord word) (hrest : EndsName rest)
    (hplace : ∀ p ∈ place, ∃ k : Nat, p.1 = k ∧ k < words.length) (hedges : ∀ e ∈ edges, e.dependent < words.length)
    (hroots : place = none → ∀ r ∈ roots, r < words.length) :
    takeVertex size ⟨drawn words edges roots, opened⟩ place (word ++ rest) =
      .ok (⟨drawn (words ++ [word]) (edges ++ hung words.length place) (roots ++ addedRoots words.length place), opened⟩, rest) := by
  obtain ⟨c, cs, rfl⟩ := List.exists_cons_of_ne_nil hword.name.1
  obtain ⟨hmark, hblank⟩ := hword.name.2 c (List.mem_cons_self ..)
  have htrim : Text.trimStart (c :: cs ++ rest) = c :: cs ++ rest := List.dropWhile_cons_of_neg (by simp [hblank])
  unfold takeVertex
  rw [htrim]
  split
  · rename_i hopen
    cases hopen
    exact absurd (List.mem_cons_self ..) hmark
  · rw [takeName_append size hword.name hrest]
    show Except.ok (Draft.mk (((drawn words edges roots).vertex (c :: cs)).1.attach
      ((drawn words edges roots).vertex (c :: cs)).2 place) opened, rest) = _
    rw [vertex_drawn hword]
    exact congrArg (fun g => Except.ok (Draft.mk g opened, rest)) (attach_drawn hplace hedges hroots _)

/-- A word is read behind a bracket that it opens. -/
theorem takeVertex_open (size : Nat) (opened : List Int) {place : Attachment} (hword : IsWord word) (hrest : EndsName rest)
    (hplace : ∀ p ∈ place, ∃ k : Nat, p.1 = k ∧ k < words.length) (hedges : ∀ e ∈ edges, e.dependent < words.length)
    (hroots : place = none → ∀ r ∈ roots, r < words.length) :
    takeVertex size ⟨drawn words edges roots, opened⟩ place ('[' :: word ++ rest) =
      .ok (⟨drawn (words ++ [word]) (edges ++ hung words.length place) (roots ++ addedRoots words.length place),
        (words.length : Int) :: opened⟩, rest) := by
  have htrim : Text.trimStart ('[' :: word ++ rest) = '[' :: (word ++ rest) := List.dropWhile_cons_of_neg (by decide)
  unfold takeVertex
  rw [htrim]
  simp only
  rw [takeName_append size hword.name hrest]
  show Except.ok (Draft.mk (((drawn words edges roots).vertex word).1.attach ((drawn words edges roots).vertex word).2 place)
    (((drawn words edges roots).vertex word).2 :: opened), rest) = _
  rw [vertex_drawn hword]
  exact congrArg (fun g => Except.ok (Draft.mk g ((words.length : Int) :: opened), rest)) (attach_drawn hplace hedges hroots _)

/-- No name runs into dependents or the end of their bracket. -/
theorem endsName_branchChars (branches : List (List Char × Phrase)) (rest : List Char) :
    EndsName (branchChars branches ++ ']' :: rest) := by
  intro c hc
  cases branches with
  | nil =>
    cases hc
    decide
  | cons branch branches =>
    cases hc
    decide

mutual
/-- A phrase is read as what it stands for, attached where it hangs. -/
theorem takeItems_phrase (size : Nat) (phrase : Phrase) (hp : phrase.IsCanonical) (words : List (List Char)) (edges : List Edge)
    (roots : List Int) (opened : List Int) (place : Attachment) (hplace : ∀ p ∈ place, ∃ k : Nat, p.1 = k ∧ k < words.length)
    (hedges : ∀ e ∈ edges, e.dependent < words.length) (hroots : place = none → ∀ r ∈ roots, r < words.length)
    (rest : List Char) (hrest : EndsName rest) :
    ∃ d after, takeVertex size ⟨drawn words edges roots, opened⟩ place (phrase.chars ++ rest) = .ok (d, after) ∧
      takeItems size d after = takeItems size
        ⟨drawn (words ++ phrase.words) (edges ++ hung words.length place ++ phrase.edges words.length)
          (roots ++ addedRoots words.length place), opened⟩ rest := by
  cases phrase with
  | mk word branches =>
    rw [IsCanonical] at hp
    obtain ⟨hword, hbranches⟩ := hp
    rw [chars]
    split
    · rename_i hnone
      obtain rfl := List.isEmpty_iff.1 hnone
      refine ⟨_, _, takeVertex_word size opened hword hrest hplace hedges hroots, ?_⟩
      simp only [Phrase.words, branchWords, Phrase.edges, branchEdges, List.append_nil]
    · have hends := endsName_branchChars branches rest
      have hlength : (words ++ [word]).length = words.length + 1 := by simp
      have hnew : ∀ e ∈ edges ++ hung words.length place, e.dependent < (words ++ [word]).length := by
        intro e he
        rw [hlength]
        rcases List.mem_append.1 he with he | he
        · have := hedges e he
          omega
        · cases place with
          | none => cases he
          | some p =>
            obtain rfl := List.mem_singleton.1 he
            show (words.length : Int) < _
            omega
      have hopen := takeVertex_open size opened hword hends hplace hedges hroots
      have hread := takeItems_branches size branches hbranches (words ++ [word]) (edges ++ hung words.length place)
        (roots ++ addedRoots words.length place) opened words.length (by omega) hnew rest
      refine ⟨_, _, ?_, hread.trans ?_⟩
      · rw [← hopen]
        simp only [List.cons_append, List.append_assoc, List.nil_append]
      · simp only [Phrase.words, Phrase.edges, List.append_assoc, List.singleton_append, List.length_append, List.length_cons,
          List.length_nil, Nat.zero_add]

/-- Dependents are read as what they stand for, up to the end of their bracket. -/
theorem takeItems_branches (size : Nat) (branches : List (List Char × Phrase)) (hb : AreCanonical branches)
    (words : List (List Char)) (edges : List Edge) (roots outer : List Int) (governor : Nat) (hgovernor : governor < words.length)
    (hedges : ∀ e ∈ edges, e.dependent < words.length) (rest : List Char) :
    takeItems size ⟨drawn words edges roots, (governor : Int) :: outer⟩ (branchChars branches ++ ']' :: rest) =
      takeItems size ⟨drawn (words ++ branchWords branches) (edges ++ branchEdges governor words.length branches) roots, outer⟩
        rest := by
  cases branches with
  | nil =>
    simp only [branchChars, branchWords, branchEdges, List.nil_append, List.append_nil]
    exact takeItems_close
  | cons branch branches =>
    obtain ⟨relation, phrase⟩ := branch
    rw [AreCanonical] at hb
    obtain ⟨hrelation, hphrase, hbranches⟩ := hb
    have hends := endsName_branchChars branches rest
    have hplace : ∀ p ∈ some ((governor : Int), String.ofList relation), ∃ k : Nat, p.1 = k ∧ k < words.length := by
      rintro p ⟨⟩
      exact ⟨governor, rfl, hgovernor⟩
    obtain ⟨d, after, hword, hread⟩ := takeItems_phrase size phrase hphrase words edges roots ((governor : Int) :: outer)
      (some ((governor : Int), String.ofList relation)) hplace hedges (fun h => nomatch h) _ hends
    have harrow : EndsName ('>' :: (phrase.chars ++ (branchChars branches ++ ']' :: rest))) := by
      rintro c ⟨⟩
      decide
    obtain ⟨c, cs, rfl⟩ := List.exists_cons_of_ne_nil hrelation.1
    obtain ⟨hmark, hblank⟩ := hrelation.2 c (List.mem_cons_self ..)
    have htrim : Text.trimStart (' ' :: (c :: cs ++ '>' :: (phrase.chars ++ (branchChars branches ++ ']' :: rest)))) =
        c :: cs ++ '>' :: (phrase.chars ++ (branchChars branches ++ ']' :: rest)) := by
      rw [Text.trimStart, List.dropWhile_cons_of_pos (by decide)]
      exact List.dropWhile_cons_of_neg (by simp [hblank])
    have hstep := takeItems_branch htrim (fun h => hmark (by simp [h])) (takeName_append size hrelation harrow) hword
    have hlength : (words ++ phrase.words).length = words.length + phrase.words.length := List.length_append
    have hnew : ∀ e ∈ edges ++ hung words.length (some ((governor : Int), String.ofList (c :: cs))) ++ phrase.edges words.length,
        e.dependent < (words ++ phrase.words).length := by
      intro e he
      rw [hlength]
      have hpos := length_words_pos phrase
      simp only [hung, List.mem_append, List.mem_singleton] at he
      rcases he with (he | rfl) | he
      · have := hedges e he
        omega
      · show (words.length : Int) < _
        omega
      · exact (of_mem_edges phrase he).2.2
    have hrest := takeItems_branches size branches hbranches (words ++ phrase.words)
      (edges ++ hung words.length (some ((governor : Int), String.ofList (c :: cs))) ++ phrase.edges words.length) roots outer governor
      (by omega) hnew rest
    rw [addedRoots, List.append_nil] at hread
    rw [hlength] at hrest
    have htext : branchChars ((c :: cs, phrase) :: branches) ++ ']' :: rest =
        ' ' :: (c :: cs ++ '>' :: (phrase.chars ++ (branchChars branches ++ ']' :: rest))) := by
      simp only [branchChars, List.cons_append, List.append_assoc]
    rw [htext, hstep, hread, hrest]
    simp only [branchWords, branchEdges, hung, List.append_assoc, List.cons_append, List.nil_append]
end

/-- Text behind a phrase on the outside: further phrases, each behind a space. -/
def furtherChars (phrases : List Phrase) : List Char := phrases.flatMap fun p => ' ' :: p.chars

/-- No name runs into further phrases. -/
theorem endsName_furtherChars (phrases : List Phrase) : EndsName (furtherChars phrases) := by
  intro c hc
  cases phrases with
  | nil => cases hc
  | cons phrase phrases =>
    cases hc
    decide

/-- A phrase on the outside is read as what it stands for, with a space before it or without. -/
theorem takeItems_outer (size : Nat) {phrase : Phrase} (hp : phrase.IsCanonical) (words : List (List Char)) (edges : List Edge)
    (roots : List Int) (hedges : ∀ e ∈ edges, e.dependent < words.length) (hroots : ∀ r ∈ roots, r < words.length)
    (hrest : EndsName rest) (hcs : Text.trimStart cs = phrase.chars ++ rest) :
    takeItems size ⟨drawn words edges roots, []⟩ cs = takeItems size
      ⟨drawn (words ++ phrase.words) (edges ++ phrase.edges words.length) (roots ++ [(words.length : Int)]), []⟩ rest := by
  obtain ⟨d, after, hword, hread⟩ :=
    takeItems_phrase size phrase hp words edges roots [] none (fun _ h => nomatch h) hedges (fun _ => hroots) rest hrest
  obtain ⟨c, text, hchars, -⟩ := chars_eq_cons hp
  rw [hchars] at hcs hword
  rw [takeItems_root hcs hword, hread, hung, List.append_nil]
  rfl

/-- Further phrases are read as what they stand for. -/
theorem takeItems_furtherChars (size : Nat) {phrases : List Phrase} (hp : ∀ p ∈ phrases, p.IsCanonical) (words : List (List Char))
    (edges : List Edge) (roots : List Int) (hedges : ∀ e ∈ edges, e.dependent < words.length)
    (hroots : ∀ r ∈ roots, r < words.length) :
    takeItems size ⟨drawn words edges roots, []⟩ (furtherChars phrases) =
      .ok (drawn (words ++ allWords phrases) (edges ++ allEdges words.length phrases) (roots ++ starts words.length phrases)) := by
  induction phrases generalizing words edges roots with
  | nil =>
    simp only [furtherChars, allWords, allEdges, starts, List.flatMap_nil, List.append_nil]
    exact takeItems_end size _
  | cons phrase phrases ih =>
    obtain ⟨hphrase, hp⟩ := List.forall_mem_cons.1 hp
    have hpos := length_words_pos phrase
    obtain ⟨c, text, hchars, hblank⟩ := chars_eq_cons hphrase
    have htrim : Text.trimStart (furtherChars (phrase :: phrases)) = phrase.chars ++ furtherChars phrases := by
      rw [furtherChars, List.flatMap_cons, List.cons_append, Text.trimStart, List.dropWhile_cons_of_pos (by decide), hchars]
      exact List.dropWhile_cons_of_neg (by simp [hblank])
    have hlength : (words ++ phrase.words).length = words.length + phrase.words.length := List.length_append
    have hnew : ∀ e ∈ edges ++ phrase.edges words.length, e.dependent < (words ++ phrase.words).length := by
      intro e he
      rw [hlength]
      rcases List.mem_append.1 he with he | he
      · have := hedges e he
        omega
      · exact (of_mem_edges phrase he).2.2
    have hnewRoots : ∀ r ∈ roots ++ [(words.length : Int)], r < (words ++ phrase.words).length := by
      intro r hr
      rw [hlength]
      rcases List.mem_append.1 hr with hr | hr
      · have := hroots r hr
        omega
      · obtain rfl := List.mem_singleton.1 hr
        omega
    rw [takeItems_outer size hphrase words edges roots hedges hroots (endsName_furtherChars phrases) htrim,
      ih hp _ _ _ hnew hnewRoots, hlength]
    simp only [allWords, allEdges, starts, List.flatMap_cons, List.append_assoc, List.singleton_append]

/-- The graph that draws phrases. -/
def ofPhrases (phrases : List Phrase) : Graph := drawn (allWords phrases) (allEdges 0 phrases) (starts 0 phrases)

/-- A text of phrases is read as the graph that draws them. -/
theorem ofCompact_chars {phrase : Phrase} {phrases : List Phrase} (hp : ∀ p ∈ phrase :: phrases, p.IsCanonical) {s : String}
    (hs : s.toList = phrase.chars ++ furtherChars phrases) : ofCompact s = .ok (ofPhrases (phrase :: phrases)) := by
  obtain ⟨hphrase, hrest⟩ := List.forall_mem_cons.1 hp
  obtain ⟨c, text, hchars, hblank⟩ := chars_eq_cons hphrase
  have htrim : Text.trimStart s.toList = phrase.chars ++ furtherChars phrases := by
    rw [hs, hchars]
    exact List.dropWhile_cons_of_neg (by simp [hblank])
  have hne : (Text.trimStart s.toList).isEmpty = false := by
    rw [htrim, hchars]
    rfl
  unfold ofCompact
  simp only [hne, Bool.false_eq_true, if_false]
  refine (takeItems_outer s.toList.length hphrase [] [] [] (fun _ h => nomatch h) (fun _ h => nomatch h)
    (endsName_furtherChars phrases) htrim).trans ?_
  rw [takeItems_furtherChars s.toList.length hrest]
  · simp [ofPhrases, allWords, allEdges, starts]
  · intro e he
    simpa using (of_mem_edges phrase he).2.2
  · intro r hr
    have hpos := length_words_pos phrase
    obtain rfl : r = ((0 : Nat) : Int) := by simpa using hr
    simp only [List.nil_append]
    omega

end Reading

/-! ## Writing -/

section Writing

variable {words : List (List Char)} {edges : List Edge} {roots : List Int} {g : Graph}

/-- Edges that lead to different tokens are all kept. -/
theorem firstOfEach_eq_self {far : Edge → Int} {es : List Edge} (h : es.Pairwise fun e f => far e < far f) :
    Edge.firstOfEach far es = es := by
  induction es with
  | nil => rfl
  | cons e es ih =>
    obtain ⟨he, hes⟩ := List.pairwise_cons.1 h
    rw [Edge.firstOfEach, ih hes, List.filter_eq_self.2]
    intro f hf
    have := he f hf
    simp only [Bool.not_eq_true', Bool.and_eq_false_iff, beq_eq_false_iff_ne]
    exact Or.inl (by omega)

variable (edges roots) in
/-- The tokens that numbers of words stand for, with what they are found for. -/
theorem filterMap_token?_drawn {α : Type} {items : List α} {f : α → Int} (h : ∀ a ∈ items, ∃ k : Nat, f a = k ∧ k < words.length) :
    ∃ token : α → Token, items.filterMap (fun a => ((drawn words edges roots).token? (f a)).map (a, ·)) =
      items.map (fun a => (a, token a)) ∧ ∀ a ∈ items, (token a).position = f a := by
  refine ⟨fun a => ((drawn words edges roots).token? (f a)).getD default, ?_, fun a ha => ?_⟩
  · rw [← List.filterMap_eq_map]
    refine List.filterMap_congr fun a ha => ?_
    obtain ⟨k, hk, hlt⟩ := h a ha
    show ((drawn words edges roots).token? (f a)).map (a, ·) = some (a, ((drawn words edges roots).token? (f a)).getD default)
    rw [hk, token?_drawn (List.getElem?_eq_getElem hlt)]
    rfl
  · obtain ⟨k, hk, hlt⟩ := h a ha
    show (((drawn words edges roots).token? (f a)).getD default).position = f a
    rw [hk, token?_drawn (List.getElem?_eq_getElem hlt)]
    rfl

/-- The branches of a token are its edges, if these lead to words in their order. -/
theorem branches_drawn {n : Nat} {es : List Edge} (hedges : edges.filter (·.governor == (n : Int)) = es)
    (hascend : es.Pairwise fun e f => e.dependent < f.dependent) (hends : ∀ e ∈ es, ∃ k : Nat, e.dependent = k ∧ k < words.length) :
    (drawn words edges roots).branches n = es := by
  have hleaving : (((drawn words edges roots).arcs.filter (·.edge.governor == (n : Int))).map (·.edge)).Perm es := by
    have hsame : ((arcsFrom 0 edges).filter (·.edge.governor == (n : Int))).map (·.edge) = es := by
      rw [← hedges, ← map_edge_arcsFrom 0 edges, List.filter_map, map_edge_arcsFrom]
      rfl
    show (((arcsFrom 0 edges).reverse.filter (·.edge.governor == (n : Int))).map (·.edge)).Perm es
    rw [List.filter_reverse, List.map_reverse, hsame]
    exact List.reverse_perm es
  have houtgoing : (drawn words edges roots).outgoing n = es := by
    refine Order.sortBy_eq_of_perm hleaving (hascend.imp fun hlt => ?_)
    simp only [Edge.cmpDependent, compareLex, compareOn, Ordering.then_eq_lt, Int.compare_eq_lt]
    exact Or.inl hlt
  obtain ⟨token, hpairs, hposition⟩ := filterMap_token?_drawn edges roots hends
  have hsorted : Order.sortBy Branch.cmp (es.map fun e => (e, token e)) = es.map fun e => (e, token e) := by
    refine Order.sortBy_eq_self (List.pairwise_map.2 (hascend.imp_of_mem fun {e f} he hf hlt => ?_))
    have hcmp : Branch.cmp (e, token e) (f, token f) = .lt := by
      simp only [Branch.cmp, compareLex, compareOn, hposition e he, hposition f hf, Ordering.then_eq_lt, Int.compare_eq_lt]
      exact Or.inl hlt
    rw [hcmp]
    rfl
  unfold branches
  rw [houtgoing, hpairs]
  show Edge.firstOfEach Edge.dependent ((Order.sortBy Branch.cmp (es.map fun e => (e, token e))).map (·.1)) = es
  rw [hsorted, List.map_map]
  show Edge.firstOfEach Edge.dependent (es.map id) = es
  rw [List.map_id, firstOfEach_eq_self hascend]

/-- Roots that are words in their order stand in linear order. -/
theorem rootsInOrder_drawn (hascend : roots.Pairwise (· < ·)) (hroots : ∀ r ∈ roots, ∃ k : Nat, r = k ∧ k < words.length) :
    (drawn words edges roots).rootsInOrder = roots := by
  obtain ⟨token, hpairs, hposition⟩ := filterMap_token?_drawn edges roots hroots
  have hsorted : Order.sortBy (fun a b : Int × Token => Token.cmp a.2 b.2) (roots.map fun r => (r, token r)) =
      roots.map fun r => (r, token r) := by
    refine Order.sortBy_eq_self (List.pairwise_map.2 (hascend.imp_of_mem fun {i j} hi hj hlt => ?_))
    have hcmp : Token.cmp (token i) (token j) = .lt := by
      simp only [Token.cmp, compareLex, compareOn, hposition i hi, hposition j hj, Ordering.then_eq_lt, Int.compare_eq_lt]
      exact Or.inl hlt
    rw [hcmp]
    rfl
  unfold rootsInOrder
  show (Order.sortBy _ (roots.filterMap _)).map _ = roots
  rw [hpairs, hsorted, List.map_map]
  exact List.map_id roots

/-- The edges from the word that opens a bracket to the phrases in it. -/
def stems (governor n : Nat) : List (List Char × Phrase) → List Edge
  | [] => []
  | (relation, phrase) :: rest =>
    { governor := governor, dependent := n, relation := String.ofList relation } :: stems governor (n + phrase.words.length) rest

/-- The edges from the word that opens a bracket lead to words of the bracket. -/
theorem of_mem_stems {governor n : Nat} {branches : List (List Char × Phrase)} {e : Edge} (he : e ∈ stems governor n branches) :
    (n : Int) ≤ e.dependent ∧ e.dependent < (n + (branchWords branches).length : Nat) := by
  induction branches generalizing n with
  | nil => cases he
  | cons branch rest ih =>
    obtain ⟨relation, phrase⟩ := branch
    have hpos := length_words_pos phrase
    simp only [branchWords, List.length_append]
    rcases List.mem_cons.1 he with rfl | he
    · simp only
      omega
    · have := ih he
      omega

/-- The edges from the word that opens a bracket lead to words in their order. -/
theorem pairwise_stems (governor n : Nat) (branches : List (List Char × Phrase)) :
    (stems governor n branches).Pairwise fun e f => e.dependent < f.dependent := by
  induction branches generalizing n with
  | nil => exact List.Pairwise.nil
  | cons branch rest ih =>
    obtain ⟨relation, phrase⟩ := branch
    refine List.pairwise_cons.2 ⟨fun f hf => ?_, ih _⟩
    have hpos := length_words_pos phrase
    have := of_mem_stems hf
    simp only
    omega

/-- No edge in a phrase leads from a token that is none of its words. -/
theorem filter_edges_eq_nil (phrase : Phrase) {n k : Nat} (hk : k < n ∨ n + phrase.words.length ≤ k) :
    (phrase.edges n).filter (·.governor == (k : Int)) = [] := by
  refine List.filter_eq_nil_iff.2 fun e he => ?_
  have := of_mem_edges phrase he
  rw [beq_iff_eq]
  omega

/-- No edge in a bracket leads from a token that is neither one of its words nor the one that opens it. -/
theorem filter_branchEdges_eq_nil (branches : List (List Char × Phrase)) {governor n k : Nat} (hne : k ≠ governor)
    (hk : k < n ∨ n + (branchWords branches).length ≤ k) : (branchEdges governor n branches).filter (·.governor == (k : Int)) = [] := by
  refine List.filter_eq_nil_iff.2 fun e he => ?_
  have := of_mem_branchEdges branches he
  rw [beq_iff_eq]
  omega

/-- The edges in a bracket that leave the word before it. -/
theorem filter_branchEdges_governor {governor n : Nat} (hlt : governor < n) (branches : List (List Char × Phrase)) :
    (branchEdges governor n branches).filter (·.governor == (governor : Int)) = stems governor n branches := by
  induction branches generalizing n with
  | nil => rfl
  | cons branch rest ih =>
    obtain ⟨relation, phrase⟩ := branch
    rw [branchEdges, List.cons_append, List.filter_cons_of_pos (by simp), List.filter_append, filter_edges_eq_nil phrase (Or.inl hlt),
      List.nil_append, ih (by omega), stems]

mutual
/-- Whether a graph shows a phrase: its first word is the label of token `n`, whose branches are those of the phrase. -/
def Shown (g : Graph) (n : Nat) : Phrase → Prop
  | .mk word branches =>
    g.label false n = String.ofList word ∧ g.branches n = stems n (n + 1) branches ∧ AreShown g (n + 1) branches

/-- Whether a graph shows the phrases in a bracket, the first one from token `n` on. -/
def AreShown (g : Graph) (n : Nat) : List (List Char × Phrase) → Prop
  | [] => True
  | (_, phrase) :: rest => Shown g n phrase ∧ AreShown g (n + phrase.words.length) rest
end

mutual
/-- A drawn graph shows a phrase whose words and edges it has. -/
theorem shown_drawn (phrase : Phrase) {n : Nat} (hwords : ∀ k < phrase.words.length, words[n + k]? = phrase.words[k]?)
    (hedges : ∀ k, n ≤ k → k < n + phrase.words.length →
      edges.filter (·.governor == (k : Int)) = (phrase.edges n).filter (·.governor == (k : Int))) :
    Shown (drawn words edges roots) n phrase := by
  cases phrase with
  | mk word branches =>
    have hlength : (Phrase.mk word branches).words.length = (branchWords branches).length + 1 := rfl
    rw [hlength] at hwords hedges
    have hword : words[n]? = some word := hwords 0 (by omega)
    have hrest : ∀ k < (branchWords branches).length, words[n + 1 + k]? = (branchWords branches)[k]? := by
      intro k hk
      have := hwords (k + 1) (by omega)
      rw [Nat.add_right_comm, Nat.add_assoc]
      exact this
    refine ⟨?_, branches_drawn ?_ (pairwise_stems ..) fun e he => ?_, areShown_drawn branches (Nat.lt_succ_self n) hrest ?_⟩
    · rw [label, token?_drawn hword]
      rfl
    · rw [hedges n (Nat.le_refl n) (by omega), Phrase.edges]
      exact filter_branchEdges_governor (Nat.lt_succ_self n) branches
    · have hends := of_mem_stems he
      obtain ⟨k, hk⟩ := Int.eq_ofNat_of_zero_le (a := e.dependent) (by omega)
      refine ⟨k, hk, ?_⟩
      have hsome := (hrest (k - (n + 1)) (by omega)).trans (List.getElem?_eq_getElem (by omega))
      rw [Nat.add_sub_cancel' (by omega)] at hsome
      exact (List.getElem?_eq_some_iff.1 hsome).1
    · intro k hle hlt
      exact hedges k (by omega) (by omega)

/-- A drawn graph shows the phrases in a bracket whose words and edges it has. -/
theorem areShown_drawn (branches : List (List Char × Phrase)) {governor n : Nat} (hlt : governor < n)
    (hwords : ∀ k < (branchWords branches).length, words[n + k]? = (branchWords branches)[k]?)
    (hedges : ∀ k, n ≤ k → k < n + (branchWords branches).length →
      edges.filter (·.governor == (k : Int)) = (branchEdges governor n branches).filter (·.governor == (k : Int))) :
    AreShown (drawn words edges roots) n branches := by
  cases branches with
  | nil => trivial
  | cons branch rest =>
    obtain ⟨relation, phrase⟩ := branch
    have hlength : (branchWords ((relation, phrase) :: rest)).length = phrase.words.length + (branchWords rest).length :=
      List.length_append
    rw [hlength] at hwords hedges
    have hsplit : ∀ k, n ≤ k → k < n + (phrase.words.length + (branchWords rest).length) →
        edges.filter (·.governor == (k : Int)) = (phrase.edges n).filter (·.governor == (k : Int)) ++
          (branchEdges governor (n + phrase.words.length) rest).filter (·.governor == (k : Int)) := by
      intro k hle hk
      rw [hedges k hle hk, branchEdges, List.cons_append, List.filter_cons_of_neg (by simp; omega), List.filter_append]
    have hnext : governor < n + phrase.words.length := by omega
    refine ⟨shown_drawn phrase (fun k hk => ?_) fun k hle hk => ?_,
      areShown_drawn rest hnext (fun k hk => ?_) fun k hle hk => ?_⟩
    · rw [hwords k (by omega), branchWords, List.getElem?_append_left hk]
    · rw [hsplit k hle (by omega), filter_branchEdges_eq_nil rest (by omega) (by omega), List.append_nil]
    · rw [Nat.add_assoc, hwords _ (by omega), branchWords, List.getElem?_append_right (Nat.le_add_right ..), Nat.add_sub_cancel_left]
    · rw [hsplit k (by omega) (by omega), filter_edges_eq_nil phrase (Or.inr hle), List.nil_append]
end

/-- The texts of strings one after the other. -/
def joined (texts : List String) : List Char := texts.flatMap String.toList

/-- The first of consecutive numbers is taken away. -/
theorem erase_span (n count : Nat) : (span n (count + 1)).erase n = span (n + 1) count := by
  rw [span_succ, List.erase_cons_head]

/-- The pieces that announce edges. -/
def mentions (es : List Edge) : List Piece := es.map fun e => .mention e.relation e.dependent

mutual
/-- The expansion of a token that begins a phrase is written as the phrase, if none of its words was met before. -/
theorem joined_expansion (phrase : Phrase) {n : Nat} (hs : Shown g n phrase) (count : Nat) (roots : List Int) (pieces : List Piece) :
    joined ((g.expansion false n).1 ++
        g.writePieces false ((span n (phrase.words.length + count)).erase n) roots ((g.expansion false n).2 ++ pieces)) =
      phrase.chars ++ joined (g.writePieces false (span (n + phrase.words.length) count) roots pieces) := by
  cases phrase with
  | mk word branches =>
    obtain ⟨hlabel, hbranches, hshown⟩ := hs
    have hlength : (Phrase.mk word branches).words.length = (branchWords branches).length + 1 := rfl
    have herase : (span n ((Phrase.mk word branches).words.length + count)).erase n = span (n + 1) ((branchWords branches).length + count) := by
      rw [hlength, Nat.add_right_comm, erase_span]
    have hnext : n + (Phrase.mk word branches).words.length = n + 1 + (branchWords branches).length := by omega
    rw [herase, hnext, expansion, hbranches, hlabel]
    cases branches with
    | nil =>
      simp [stems, joined, chars, branchWords]
    | cons branch rest =>
      have hwrite := joined_mentions (branch :: rest) n hshown count roots (.close :: pieces)
      rw [writePieces] at hwrite
      have hsome : (stems n (n + 1) (branch :: rest)).isEmpty = false := rfl
      simp only [hsome, Bool.false_eq_true, if_false, List.append_assoc, List.singleton_append]
      rw [chars, if_neg (by simp)]
      simp only [joined, mentions, List.cons_append, List.flatMap_cons, List.nil_append, String.toList_ofList] at hwrite ⊢
      rw [hwrite]
      simp

/-- The announced phrases of a bracket are written, if none of their words was met before. -/
theorem joined_mentions (branches : List (List Char × Phrase)) (governor : Nat) {n : Nat} (hs : AreShown g n branches) (count : Nat)
    (roots : List Int) (pieces : List Piece) :
    joined (g.writePieces false (span n ((branchWords branches).length + count)) roots (mentions (stems governor n branches) ++ pieces)) =
      branchChars branches ++ joined (g.writePieces false (span (n + (branchWords branches).length) count) roots pieces) := by
  cases branches with
  | nil => simp [stems, mentions, branchWords, branchChars]
  | cons branch rest =>
    obtain ⟨relation, phrase⟩ := branch
    obtain ⟨hphrase, hrest⟩ := hs
    have hpos := length_words_pos phrase
    have hlength : (branchWords ((relation, phrase) :: rest)).length = phrase.words.length + (branchWords rest).length :=
      List.length_append
    have hfirst := joined_expansion phrase hphrase ((branchWords rest).length + count) roots
      (mentions (stems governor (n + phrase.words.length) rest) ++ pieces)
    have hothers := joined_mentions rest governor hrest count roots pieces
    have hunseen : (n : Int) ∈ span n (phrase.words.length + ((branchWords rest).length + count)) := mem_span.2 (by omega)
    rw [hlength, Nat.add_assoc, ← Nat.add_assoc n, stems, mentions, List.map_cons, List.cons_append, writePieces, dif_pos hunseen]
    show joined (" " :: String.ofList relation :: ">" :: _) = _
    simp only [joined, List.flatMap_cons] at hfirst hothers ⊢
    rw [mentions] at hfirst hothers
    rw [hfirst, hothers, branchChars]
    simp
end

/-- Whether a graph shows phrases, the first one from token `n` on. -/
def AllShown (g : Graph) (n : Nat) : List Phrase → Prop
  | [] => True
  | phrase :: phrases => Shown g n phrase ∧ AllShown g (n + phrase.words.length) phrases

/-- No edge in phrases leads from a token before them. -/
theorem filter_allEdges_eq_nil {phrases : List Phrase} {n k : Nat} (hk : k < n) :
    (allEdges n phrases).filter (·.governor == (k : Int)) = [] := by
  induction phrases generalizing n with
  | nil => rfl
  | cons phrase phrases ih =>
    rw [allEdges, List.filter_append, filter_edges_eq_nil phrase (Or.inl hk), ih (by omega), List.nil_append]

/-- A drawn graph shows the phrases whose words and edges it has. -/
theorem allShown_drawn {phrases : List Phrase} {n : Nat} (hwords : ∀ k < (allWords phrases).length, words[n + k]? = (allWords phrases)[k]?)
    (hedges : ∀ k, n ≤ k → edges.filter (·.governor == (k : Int)) = (allEdges n phrases).filter (·.governor == (k : Int))) :
    AllShown (drawn words edges roots) n phrases := by
  induction phrases generalizing n with
  | nil => trivial
  | cons phrase phrases ih =>
    have hall : allWords (phrase :: phrases) = phrase.words ++ allWords phrases := List.flatMap_cons
    rw [hall, List.length_append] at hwords
    have hsplit : ∀ k, n ≤ k → edges.filter (·.governor == (k : Int)) = (phrase.edges n).filter (·.governor == (k : Int)) ++
        (allEdges (n + phrase.words.length) phrases).filter (·.governor == (k : Int)) := by
      intro k hle
      rw [hedges k hle, allEdges, List.filter_append]
    refine ⟨shown_drawn phrase (fun k hk => ?_) fun k hle hk => ?_, ih (fun k hk => ?_) fun k hle => ?_⟩
    · rw [hwords k (by omega), List.getElem?_append_left hk]
    · rw [hsplit k hle, filter_allEdges_eq_nil hk, List.append_nil]
    · rw [Nat.add_assoc, hwords _ (by omega), List.getElem?_append_right (Nat.le_add_right ..), Nat.add_sub_cancel_left]
    · rw [hsplit k (by omega), filter_edges_eq_nil phrase (Or.inr hle), List.nil_append]

/-- The further roots are written as the phrases that they begin. -/
theorem joined_starts {phrases : List Phrase} {n : Nat} (hs : AllShown g n phrases) :
    joined (g.writePieces false (span n (allWords phrases).length) (starts n phrases) []) = furtherChars phrases := by
  induction phrases generalizing n with
  | nil =>
    rw [starts, writePieces]
    rfl
  | cons phrase phrases ih =>
    obtain ⟨hphrase, hrest⟩ := hs
    have hlength : (allWords (phrase :: phrases)).length = phrase.words.length + (allWords phrases).length := by
      rw [allWords, List.flatMap_cons, List.length_append]
      rfl
    have hwrite := joined_expansion phrase hphrase (allWords phrases).length (starts (n + phrase.words.length) phrases) []
    rw [List.append_nil, ih hrest] at hwrite
    rw [hlength, starts, writePieces, furtherChars, List.flatMap_cons, List.cons_append, List.cons_append]
    exact congrArg (' ' :: ·) hwrite

/-- The number of the first word of a later phrase is behind those before. -/
theorem of_mem_starts {phrases : List Phrase} {n : Nat} {r : Int} (hr : r ∈ starts n phrases) :
    (n : Int) ≤ r ∧ r < (n + (allWords phrases).length : Nat) := by
  induction phrases generalizing n with
  | nil => cases hr
  | cons phrase phrases ih =>
    have hlength : (allWords (phrase :: phrases)).length = phrase.words.length + (allWords phrases).length := by
      rw [allWords, List.flatMap_cons, List.length_append]
      rfl
    have hpos := length_words_pos phrase
    rw [hlength]
    rcases List.mem_cons.1 hr with rfl | hr
    · omega
    · have := ih hr
      omega

/-- The numbers of the first words of phrases ascend. -/
theorem pairwise_starts (n : Nat) (phrases : List Phrase) : (starts n phrases).Pairwise (· < ·) := by
  induction phrases generalizing n with
  | nil => exact List.Pairwise.nil
  | cons phrase phrases ih =>
    refine List.pairwise_cons.2 ⟨fun r hr => ?_, ih _⟩
    have hpos := length_words_pos phrase
    have := of_mem_starts hr
    omega

/-- The graph that draws phrases is written as they are. -/
theorem compact_ofPhrases (phrase : Phrase) (phrases : List Phrase) :
    ((ofPhrases (phrase :: phrases)).compact false).toList = phrase.chars ++ furtherChars phrases := by
  have hroots : (ofPhrases (phrase :: phrases)).rootsInOrder = (0 : Int) :: starts (0 + phrase.words.length) phrases := by
    refine rootsInOrder_drawn (pairwise_starts 0 (phrase :: phrases)) fun r hr => ?_
    have hends := of_mem_starts hr
    obtain ⟨k, hk⟩ := Int.eq_ofNat_of_zero_le (a := r) (by omega)
    exact ⟨k, hk, by omega⟩
  have hindices : (ofPhrases (phrase :: phrases)).indices = span 0 (phrase.words.length + (allWords phrases).length) := by
    refine (indices_drawn ..).trans ?_
    rw [allWords, List.flatMap_cons, List.length_append]
    rfl
  obtain ⟨hphrase, hrest⟩ : AllShown (ofPhrases (phrase :: phrases)) 0 (phrase :: phrases) := by
    refine allShown_drawn (fun k _ => ?_) fun k _ => rfl
    rw [Nat.zero_add]
  have hwrite := joined_expansion phrase hphrase (allWords phrases).length (starts (0 + phrase.words.length) phrases) []
  rw [List.append_nil, joined_starts hrest] at hwrite
  rw [← hwrite, compact, hroots, hindices]
  exact String.toList_join

end Writing

/-! ## Reading, then writing -/

/-- A text in compact form as it is written: phrases, one space between two of them, without tags or indices. -/
def Canonical (s : String) : Prop :=
  ∃ phrases ≠ [], (∀ p ∈ phrases, p.IsCanonical) ∧ s.toList = [' '].intercalate (phrases.map chars)

/-- Phrases with a space between two of them are the first one and the further ones. -/
theorem intercalate_chars (phrase : Phrase) (phrases : List Phrase) :
    [' '].intercalate ((phrase :: phrases).map chars) = phrase.chars ++ furtherChars phrases := by
  induction phrases generalizing phrase with
  | nil => simp [furtherChars]
  | cons next phrases ih =>
    rw [List.map_cons, List.map_cons, List.intercalate_cons_cons, ← List.map_cons, ih next]
    simp [furtherChars]

/-- A text in compact form is read as a graph of which the same text is written. -/
theorem compact_ofCompact {s : String} (hs : Canonical s) : (ofCompact s).map (·.compact false) = .ok s := by
  obtain ⟨phrases, hne, hp, htext⟩ := hs
  obtain ⟨phrase, phrases, rfl⟩ := List.exists_cons_of_ne_nil hne
  rw [intercalate_chars] at htext
  rw [ofCompact_chars hp htext]
  refine congrArg Except.ok (String.ext ?_)
  rw [compact_ofPhrases, htext]

/-- A text that could be a word by its characters is one if it does not end in a digit. -/
theorem isWord_of_getLast {cs : List Char} (hname : IsName cs) (hslash : '/' ∉ cs)
    (hlast : cs.getLast?.all (Text.isAsciiDigit · == false)) : IsWord cs := by
  rw [Option.all_eq_true] at hlast
  refine ⟨hname, hslash, fun head digits hcs _ hdigits => ⟨digits.getLast hdigits, List.getLast_mem hdigits, eq_of_beq (hlast _ ?_)⟩⟩
  rw [hcs, List.getLast?_append, List.getLast?_cons, List.getLast?_eq_getLast_of_ne_nil hdigits]
  rfl

/-- Reading and writing a text with brackets in brackets, hyphens and two roots. -/
theorem compact_ofCompact_ate :
    Canonical "[ate subj>Bill dobj>[muffins compound>blue-berry]] amen" ∧
      (ofCompact "[ate subj>Bill dobj>[muffins compound>blue-berry]] amen").map (·.compact false) =
        .ok "[ate subj>Bill dobj>[muffins compound>blue-berry]] amen" := by
  have hword : ∀ word ∈ ["ate", "Bill", "muffins", "blue-berry", "amen"], IsWord word.toList := by
    intro word hword
    refine isWord_of_getLast ?_ ?_ ?_ <;> revert word <;> decide
  have hcanonical : Canonical "[ate subj>Bill dobj>[muffins compound>blue-berry]] amen" := by
    refine ⟨[.mk "ate".toList [("subj".toList, .mk "Bill".toList []),
      ("dobj".toList, .mk "muffins".toList [("compound".toList, .mk "blue-berry".toList [])])], .mk "amen".toList []],
      List.cons_ne_nil _ _, ?_, by decide⟩
    simp only [List.forall_mem_cons, IsCanonical, AreCanonical, List.not_mem_nil, false_implies, implies_true, and_true]
    have hrelation : ∀ relation ∈ ["subj", "dobj", "compound"], IsName relation.toList := by decide
    simp_all
  exact ⟨hcanonical, compact_ofCompact hcanonical⟩

end Treebank.Graph
