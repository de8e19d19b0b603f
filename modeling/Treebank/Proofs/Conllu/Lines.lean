import Treebank.Proofs.Conllu.Numbering
import Treebank.Proofs.Conllu.Roster

/-!
# The lines of a graph in writing

A graph is written with one line for each token and one for each surface word, behind its comments. A line begins with its id. The row of
a surface word runs from what stands at its start to what stands at its stop: the last ordinary token at that position, or the position
itself if none is there (`endOf_eq`).
-/

namespace Treebank.Conllu

variable {g : Graph} {t : Token} {m m' : Multiword} {position : Int}

/-! ## Lines -/

/-- The lines of the tokens and the surface words of a graph. -/
def writtenLines (g : Graph) : List String :=
  rowLines g (idsOf g) (idsByPosition (idsOf g) g.tokensInOrder) (Order.sortBy (compareOn Multiword.start) g.multiwords) g.tokensInOrder

/-- A graph is written with its comments, its lines and a blank line. -/
theorem writeGraph_eq_lines (g : Graph) : writeGraph g = "\n".intercalate (g.comments ++ writtenLines g) ++ "\n\n" := rfl

/-- There is one line for each token and one for each surface word that is pending. -/
theorem perm_rowLines (g : Graph) (ids byPosition : List (Int × String)) (pending : List Multiword) (ts : List Token) :
    (rowLines g ids byPosition pending ts).Perm (ts.map (fun t => (rowOf g ids t).text) ++ pending.map (spanRow byPosition)) := by
  induction ts generalizing pending with
  | nil => exact .refl _
  | cons t ts ih =>
    rw [rowLines]
    generalize hdue : (fun m : Multiword => !t.isEmptyNode && decide (m.start ≤ t.position)) = due
    have hpending : pending.map (spanRow byPosition) =
        (pending.takeWhile due).map (spanRow byPosition) ++ (pending.dropWhile due).map (spanRow byPosition) := by
      rw [← List.map_append, List.takeWhile_append_dropWhile]
    refine List.perm_middle.trans ?_
    rw [List.map_cons, List.cons_append, hpending]
    refine .cons _ (((ih _).append_left _).trans ?_)
    rw [← List.append_assoc, ← List.append_assoc]
    exact List.perm_append_comm.append_right _

/-- There is one line for each token and one for each surface word. -/
theorem perm_writtenLines (g : Graph) : (writtenLines g).Perm (g.tokensInOrder.map (fun t => (rowOf g (idsOf g) t).text) ++
    g.multiwords.map (spanRow (idsByPosition (idsOf g) g.tokensInOrder))) :=
  (perm_rowLines ..).trans (((Order.perm_sortBy _ g.multiwords).map _).append_left _)

/-! ## Ids of lines -/

/-- The id of a line: what stands before its first tab. -/
def idColumn (line : String) : String := String.ofList (line.toList.takeWhile (· ≠ '\t'))

/-- The first of some columns that are joined by tabs is the id of the line. -/
theorem idColumn_intercalate {id column : String} {columns : List String} (hid : '\t' ∉ id.toList) :
    idColumn ("\t".intercalate (id :: column :: columns)) = id := by
  rw [idColumn, String.toList_intercalate, List.map_cons, List.map_cons, List.intercalate_cons_cons]
  rw [List.append_assoc, List.takeWhile_append_of_pos fun c hc => by simpa using fun e : c = '\t' => hid (e ▸ hc)]
  have htab : "\t".toList = ['\t'] := rfl
  rw [htab, List.singleton_append, List.takeWhile_cons_of_neg (by simp), List.append_nil, String.ofList_toList]

/-- The id of a token is written with digits and a point. -/
theorem notMem_idOf (hg : g.Sound) (ht : t ∈ g.tokensInOrder) {c : Char} (hdigit : Text.isAsciiDigit c = false) (hpoint : c ≠ '.') :
    c ∉ (idOf (idsOf g) t.index).toList := by
  have hdigits : ∀ n, c ∉ Nat.toDigits 10 n := notMem_toDigits hdigit
  rw [idOf_eq hg ht, toList_text]
  have htoken : (rowIdOf g t).isToken := (RowId.of_behind _ t).1
  cases h : rowIdOf g t with
  | ordinary n => exact hdigits n
  | span start stop =>
    rw [h] at htoken
    cases htoken
  | elided host n => simp [hdigits, hpoint]

/-! ## Surface words -/

/-- What is written for the end of a surface word. -/
def endOf (g : Graph) (position : Int) : String :=
  ((idsByPosition (idsOf g) g.tokensInOrder).lookup position).getD (toString position)

/-- The ordinary tokens at a position, in linear order. -/
def ordinaryAt (g : Graph) (position : Int) : List Token := g.tokensInOrder.filter fun t => !t.isEmptyNode && t.position == position

/-- The end of a surface word is written as the last ordinary token at that position, or as the position if none is there. -/
theorem endOf_eq (g : Graph) (position : Int) :
    endOf g position = ((ordinaryAt g position).getLast?.map fun t => idOf (idsOf g) t.index).getD (toString position) := by
  have hordinary : ordinaryAt g position = (g.tokensInOrder.filter (!·.isEmptyNode)).filter (·.position == position) := by
    rw [List.filter_filter]
    exact List.filter_congr fun t _ => Bool.and_comm ..
  rw [endOf, idsByPosition, ← List.map_reverse, Pairs.lookup_map_pair, hordinary, ← List.head?_filter, List.filter_reverse,
    List.head?_reverse]

/-- The end of a surface word is written with digits and a point. -/
theorem notMem_endOf (hg : g.Sound) (hposition : 0 ≤ position) {c : Char} (hdigit : Text.isAsciiDigit c = false) (hpoint : c ≠ '.') :
    c ∉ (endOf g position).toList := by
  rw [endOf_eq]
  cases hlast : (ordinaryAt g position).getLast? with
  | some t => exact notMem_idOf hg (List.mem_of_mem_filter (List.mem_of_getLast? hlast)) hdigit hpoint
  | none =>
    obtain ⟨n, rfl⟩ := Int.eq_ofNat_of_zero_le hposition
    show c ∉ (toString n).toList
    rw [Text.toList_toString]
    exact notMem_toDigits hdigit n

/-- The id of the row of a surface word. -/
def spanId (g : Graph) (m : Multiword) : String := endOf g m.start ++ "-" ++ endOf g m.stop

theorem toList_spanId (g : Graph) (m : Multiword) : (spanId g m).toList = (endOf g m.start).toList ++ '-' :: (endOf g m.stop).toList := by
  simp [spanId]

/-- The id of the row of a surface word is written with digits, a dash and points. -/
theorem notMem_spanId (hg : g.Sound) (hm : m.Counts) {c : Char} (hdigit : Text.isAsciiDigit c = false) (hpoint : c ≠ '.')
    (hdash : c ≠ '-') : c ∉ (spanId g m).toList := by
  obtain ⟨hstart, hstop⟩ := hm
  have hfirst := notMem_endOf hg (Int.le_of_lt hstart) hdigit hpoint
  have hlast := notMem_endOf hg (Int.le_trans (Int.le_of_lt hstart) hstop) hdigit hpoint
  simp [toList_spanId, hfirst, hlast, hdash]

/-- The id of the row of a surface word says how its ends are written. -/
theorem spanId_eq_append_iff (hg : g.Sound) (hm : m.Counts) {first last : String} :
    spanId g m = first ++ "-" ++ last ↔ endOf g m.start = first ∧ endOf g m.stop = last := by
  obtain ⟨hstart, hstop⟩ := hm
  have hfirst : '-' ∉ (endOf g m.start).toList := notMem_endOf hg (Int.le_of_lt hstart) (by decide) (by decide)
  have hlast : '-' ∉ (endOf g m.stop).toList := notMem_endOf hg (Int.le_trans (Int.le_of_lt hstart) hstop) (by decide) (by decide)
  have hends : (first ++ "-" ++ last).toList = first.toList ++ '-' :: last.toList := by simp
  rw [← String.toList_inj, toList_spanId, hends, List.append_cons_inj_of_notMem hfirst hlast, String.toList_inj, String.toList_inj,
    and_iff_right rfl]

/-- Two surface words are given one id exactly if their ends are written alike. -/
theorem spanId_eq_iff (hg : g.Sound) (hm : m.Counts) :
    spanId g m = spanId g m' ↔ endOf g m.start = endOf g m'.start ∧ endOf g m.stop = endOf g m'.stop := spanId_eq_append_iff hg hm

/-! ## Ids of the lines of a graph -/

/-- The line of a token begins with its id. -/
theorem idColumn_rowOf (hg : g.Sound) (ht : t ∈ g.tokensInOrder) : idColumn (rowOf g (idsOf g) t).text = idOf (idsOf g) t.index :=
  idColumn_intercalate (notMem_idOf hg ht (by decide) (by decide))

/-- The line of a surface word begins with its id. -/
theorem idColumn_spanRow (hg : g.Sound) (hm : m.Counts) :
    idColumn (spanRow (idsByPosition (idsOf g) g.tokensInOrder) m) = spanId g m :=
  idColumn_intercalate (notMem_spanId hg hm (by decide) (by decide) (by decide))

/-- No two lines of a graph begin with one id exactly if no two tokens are given one id and no two surface words are. -/
theorem nodup_idColumns_iff (hg : g.Sound) (hm : ∀ m ∈ g.multiwords, m.Counts) : ((writtenLines g).map idColumn).Nodup ↔
    (∀ t ∈ g.tokensInOrder, ∀ u ∈ g.tokensInOrder, ¬ Clash g t u) ∧
      g.multiwords.Pairwise fun m m' => ¬ (endOf g m.start = endOf g m'.start ∧ endOf g m.stop = endOf g m'.stop) := by
  have hids : ((writtenLines g).map idColumn).Perm (knownIds g ++ g.multiwords.map (spanId g)) := by
    refine ((perm_writtenLines g).map idColumn).trans (List.Perm.of_eq ?_)
    rw [List.map_append, List.map_map, List.map_map, knownIds]
    exact congrArg₂ _ (List.map_congr_left fun t ht => idColumn_rowOf hg ht) (List.map_congr_left fun m h => idColumn_spanRow hg (hm m h))
  have hapart : (knownIds g).Disjoint (g.multiwords.map (spanId g)) := by
    intro id hid hspan
    obtain ⟨t, ht, rfl⟩ := List.mem_map.1 hid
    obtain ⟨m, -, hm⟩ := List.mem_map.1 hspan
    have hdash : '-' ∈ (spanId g m).toList := by simp [toList_spanId]
    rw [hm] at hdash
    exact notMem_idOf hg ht (by decide) (by decide) hdash
  rw [hids.nodup_iff, List.nodup_append', and_iff_left hapart]
  refine and_congr (nodup_knownIds_iff hg) ?_
  rw [List.Nodup, List.pairwise_map]
  refine List.Pairwise.iff_of_mem fun {m m'} h _ => not_congr ?_
  exact spanId_eq_iff hg (hm m h)

end Treebank.Conllu
