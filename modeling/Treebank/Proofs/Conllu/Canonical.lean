import Treebank.Proofs.Conllu.Id
import Mathlib.Data.List.Forall2
import Mathlib.Data.List.Pairwise

/-!
# Canonical sentences

The one form in which a sentence is written: its comments, then its rows in order, each with all of its columns. Ordinary tokens
are numbered from one; before each of them stand the rows of the spans that begin with it, and behind it the tokens that are elided
there.
-/

namespace Treebank.Conllu

/-! ## The order of rows -/

/-- Where the rows of a sentence stand: how many ordinary tokens there are, at which of them the spans stop that begin with each one,
and the numbers of the elided tokens behind each one. Those that stand before all others are behind number zero. -/
structure Layout where
  size : Nat
  stops : Nat → List Nat
  elided : Nat → List Nat
  stops_fit : ∀ a, ∀ b ∈ stops a, a ≤ b ∧ b ≤ size
  elided_pos : ∀ a, ∀ b ∈ elided a, 0 < b
  elided_increasing : ∀ a, (elided a).Pairwise (· < ·)

namespace Layout

/-- The ids of the tokens that are elided behind a number. -/
def elidedIds (l : Layout) (a : Nat) : List RowId := (l.elided a).map (.elided a)

/-- The ids of the rows that belong to a number: the spans that begin with it, itself, and the tokens that are elided behind it. -/
def block (l : Layout) (a : Nat) : List RowId := (l.stops a).map (.span a) ++ .ordinary a :: l.elidedIds a

/-- The ids of all rows. -/
def ids (l : Layout) : List RowId := l.elidedIds 0 ++ (List.range' 1 l.size).flatMap l.block

/-- The ids of the tokens, in writing. -/
def known (l : Layout) : List String := (l.ids.filter (·.isToken)).map (·.text)

end Layout

/-! ## Columns -/

/-- The enhanced column of some heads with their relations. -/
def linksText (links : List (String × String)) : String :=
  if links.isEmpty then blank else "|".intercalate (links.map fun (head, relation) => head ++ ":" ++ relation)

/-- Heads and relations that an enhanced column may hold: no two are the same, heads are zero or known, and zero is only the first. -/
structure LinksFit (known : List String) (links : List (String × String)) : Prop where
  distinct : links.Nodup
  heads : ∀ p ∈ links, p.1 = "0" ∨ p.1 ∈ known
  relations : ∀ p ∈ links, p.2 ≠ "" ∧ '|' ∉ p.2.toList
  root : ∀ p ∈ links.tail, p.1 ≠ "0"

/-- What holds of the columns of a row with an id: they are not empty and hold no tab and no line break. The head of a token is zero,
if the token is an ordinary one, or blank with a blank relation, or known. -/
structure Row.Fits (known : List String) (id : RowId) (r : Row) : Prop where
  named : r.id = id.text
  columns : ∀ c ∈ r.columns, c ≠ "" ∧ ∀ x ∈ c.toList, x ≠ '\t' ∧ Text.isLineBreak x = false
  head : id.isToken → (r.head = "0" ∧ id.isOrdinary) ∨ (r.head = blank ∧ r.relation = blank) ∨ r.head ∈ known
  deps : id.isToken → ∃ links, LinksFit known links ∧ r.deps = linksText links

/-! ## Sentences -/

/-- The comment lines and the rows of a canonical sentence. -/
structure Canonical (comments : List String) (rows : List Row) : Prop where
  comments : ∀ c ∈ comments, c.toList.head? = some '#' ∧ ∀ x ∈ c.toList, Text.isLineBreak x = false
  nonempty : rows ≠ []
  layout : ∃ l : Layout, List.Forall₂ (Row.Fits l.known) l.ids rows

/-- The lines of a sentence; a blank line ends it. -/
def sentenceLines (comments : List String) (rows : List Row) : List String := comments ++ rows.map Row.text ++ [""]

/-- A sentence in writing: every line ends with a line feed. -/
def sentenceText (comments : List String) (rows : List Row) : String :=
  String.join ((sentenceLines comments rows).map (· ++ "\n"))

/-- Ids in the order of a layout, read along: `k` ordinary tokens have gone before, the last elided token behind them had number `b`,
and `due` tells whether an ordinary token has to come because a span begins with it. -/
def Arranged : Nat → Nat → Bool → List RowId → Prop
  | _, _, due, [] => due = false
  | k, _, _, .ordinary n :: ids => n = k + 1 ∧ Arranged (k + 1) 0 false ids
  | k, b, due, .elided host n :: ids => due = false ∧ host = k ∧ b < n ∧ Arranged k n false ids
  | k, b, _, .span start stop :: ids => start = k + 1 ∧ start ≤ stop ∧ Arranged k b true ids

/-- Elided tokens come before what may come after any elided token. -/
theorem arranged_elided {k : Nat} {ns : List Nat} {ids : List RowId} (hids : ∀ b, Arranged k b false ids) {b : Nat}
    (hb : ∀ n ∈ ns, b < n) (hns : ns.Pairwise (· < ·)) : Arranged k b false (ns.map (.elided k) ++ ids) := by
  induction ns generalizing b with
  | nil => exact hids b
  | cons n ns ih =>
    rw [List.pairwise_cons] at hns
    exact ⟨rfl, rfl, hb n (List.mem_cons_self ..), ih hns.1 hns.2⟩

/-- Spans come before the ordinary token with which they begin. -/
theorem arranged_span {k b : Nat} {due : Bool} {stops : List Nat} {ids : List RowId} (hstops : ∀ n ∈ stops, k + 1 ≤ n)
    (hids : Arranged (k + 1) 0 false ids) : Arranged k b due (stops.map (.span (k + 1)) ++ .ordinary (k + 1) :: ids) := by
  induction stops generalizing due with
  | nil => exact ⟨rfl, hids⟩
  | cons n stops ih =>
    exact ⟨rfl, hstops n (List.mem_cons_self ..), ih fun m hm => hstops m (List.mem_cons_of_mem n hm)⟩

/-- The ids of a layout are arranged. -/
theorem Layout.arranged (l : Layout) : Arranged 0 0 false l.ids := by
  have helided : ∀ {k ids}, (∀ b, Arranged k b false ids) → Arranged k 0 false (l.elidedIds k ++ ids) := fun hids =>
    arranged_elided hids (l.elided_pos _) (l.elided_increasing _)
  have hblocks : ∀ n k b, Arranged k b false ((List.range' (k + 1) n).flatMap l.block) := by
    intro n
    induction n with
    | zero => exact fun k b => rfl
    | succ n ih =>
      intro k b
      rw [List.range'_succ, List.flatMap_cons, Layout.block, List.append_assoc, List.cons_append]
      exact arranged_span (fun m hm => (l.stops_fit _ m hm).1) (helided (ih (k + 1)))
  exact helided (hblocks l.size 0)

variable {k b : Nat} {due : Bool} {ids : List RowId}

/-- Arranged ids count from one. -/
theorem counts_of_arranged (h : Arranged k b due ids) : ∀ id ∈ ids, id.Counts := by
  induction ids generalizing k b due with
  | nil => simp
  | cons id ids ih =>
    cases id with
    | ordinary n =>
      obtain ⟨rfl, h⟩ := h
      exact List.forall_mem_cons.2 ⟨Nat.succ_pos k, ih h⟩
    | span start stop =>
      obtain ⟨rfl, hstop, h⟩ := h
      exact List.forall_mem_cons.2 ⟨⟨Nat.succ_pos k, hstop⟩, ih h⟩
    | elided host n =>
      obtain ⟨-, -, hn, h⟩ := h
      exact List.forall_mem_cons.2 ⟨Nat.zero_lt_of_lt hn, ih h⟩

/-- Spans still to come begin with ordinary tokens still to come. -/
theorem lt_of_span_mem (h : Arranged k b due ids) {start stop : Nat} (hm : .span start stop ∈ ids) : k < start := by
  induction ids generalizing k b due with
  | nil => cases hm
  | cons id ids ih =>
    cases id with
    | ordinary n =>
      obtain ⟨rfl, h⟩ := h
      rcases List.mem_cons.1 hm with e | hm
      · cases e
      · exact Nat.lt_of_succ_lt (ih h hm)
    | span start' stop' =>
      obtain ⟨rfl, -, h⟩ := h
      rcases List.mem_cons.1 hm with e | hm
      · cases e
        exact Nat.lt_succ_self k
      · exact ih h hm
    | elided host n =>
      obtain ⟨-, -, -, h⟩ := h
      rcases List.mem_cons.1 hm with e | hm
      · cases e
      · exact ih h hm

/-! ## The order of tokens -/

/-- The place of an id among those of tokens: its number and the number of elided tokens from there. -/
def RowId.place : RowId → Nat × Nat
  | .ordinary n => (n, 0)
  | .span start _ => (start, 0)
  | .elided host n => (host, n)

/-- Whether a token comes before another one. -/
def RowId.Before (id id' : RowId) : Prop :=
  id.place.1 < id'.place.1 ∨ id.place.1 = id'.place.1 ∧ id.place.2 < id'.place.2

/-- Tokens still to come stand behind those that have gone before. -/
theorem before_of_mem (h : Arranged k b due ids) {id : RowId} (hm : id ∈ ids) (ht : id.isToken) :
    k < id.place.1 ∨ k = id.place.1 ∧ b < id.place.2 := by
  induction ids generalizing k b due with
  | nil => cases hm
  | cons id' ids ih =>
    cases id' with
    | ordinary n =>
      obtain ⟨rfl, h⟩ := h
      rcases List.mem_cons.1 hm with rfl | hm
      · exact Or.inl (Nat.lt_succ_self k)
      · have := ih h hm
        omega
    | span start stop =>
      obtain ⟨rfl, -, h⟩ := h
      rcases List.mem_cons.1 hm with rfl | hm
      · cases ht
      · exact ih h hm
    | elided host n =>
      obtain ⟨-, rfl, hn, h⟩ := h
      rcases List.mem_cons.1 hm with rfl | hm
      · exact Or.inr ⟨rfl, hn⟩
      · have := ih h hm
        omega

/-- The tokens of arranged ids come one before the other. -/
theorem pairwise_before (h : Arranged k b due ids) : (ids.filter (·.isToken)).Pairwise RowId.Before := by
  induction ids generalizing k b due with
  | nil => exact List.Pairwise.nil
  | cons id ids ih =>
    cases id with
    | ordinary n =>
      obtain ⟨rfl, h⟩ := h
      refine List.pairwise_cons.2 ⟨fun id' hm => ?_, ih h⟩
      obtain ⟨hm, ht⟩ := List.mem_filter.1 hm
      exact before_of_mem h hm ht
    | span start stop =>
      obtain ⟨rfl, -, h⟩ := h
      exact ih h
    | elided host n =>
      obtain ⟨-, rfl, -, h⟩ := h
      refine List.pairwise_cons.2 ⟨fun id' hm => ?_, ih h⟩
      obtain ⟨hm, ht⟩ := List.mem_filter.1 hm
      exact before_of_mem h hm ht

end Treebank.Conllu
