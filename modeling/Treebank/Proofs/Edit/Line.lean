import Treebank.Proofs.Decimal.Spelled
import Treebank.Proofs.Edit.Argument
import Treebank.Proofs.Except
import Mathlib.Algebra.BigOperators.Ring.List

/-!
# Edits in writing

The line of an edit is read as the edit (`ofLine_line`), of whatever kind it is: if the names in it are words, its attributes can be
written, and its weight is a number.
-/

namespace Treebank.Edit

open Text

variable {w : Binary64} {name : String} {value : Option String}

/-! ## Weights -/

/-- The text of a weight is a word. -/
theorem isWord_weight (hc : w.Canonical) : IsWord w.text := by
  cases w with
  | notANumber => decide
  | infinite negative => cases negative <;> decide
  | finite negative m q =>
    obtain ⟨cs, n, g, hrender, hspelled, -⟩ := Binary64.spelled_renderIn Binary64.plainLayout hc
    have htext : (Binary64.finite negative m q).text.toList = (if negative then ['-'] else []) ++ cs := by
      rw [Binary64.text, String.toList_ofList]
      exact hrender
    refine ⟨?_, fun c hcs => ?_⟩
    · obtain ⟨c, rest, rfl, -⟩ := hspelled.head
      rw [← String.toList_inj.ne, htext]
      simp
    · have hmark : ∀ d ∈ ['.', 'e', '+', '-'], isBlank d = false ∧ d ≠ '"' := by
        simp only [List.forall_mem_cons, List.not_mem_nil, false_implies, implies_true]
        decide
      rw [htext] at hcs
      rcases List.mem_append.1 hcs with hsign | hcs
      · split at hsign
        · exact hmark c (by rw [List.mem_singleton.1 hsign]; simp)
        · cases hsign
      · rcases hspelled.mem hcs with hdigit | hcs
        · refine ⟨isBlank_of_isAsciiDigit hdigit, ?_⟩
          rintro rfl
          exact absurd hdigit (by decide)
        · exact hmark c hcs

/-- A weight that is one as a number is one. -/
theorem eq_one_of_same (h : w.same .one = true) : w = .one := by
  have halike : w.alike .one = true := (Bool.and_eq_true_iff.1 h).2
  unfold Binary64.alike at halike
  split at halike
  · rename_i heq
    cases heq
  · exact of_decide_eq_true halike

/-! ## What is written -/

/-- Whether an edit can be written. -/
def Plain : Edit → Prop
  | removeEdge r =>
    (∀ name ∈ r.edge, IsWord name) ∧ (∀ name ∈ r.governor, IsWord name) ∧ (∀ name ∈ r.dependent, IsWord name) ∧
      ∀ name ∈ r.relation, IsWord name
  | addEdge governor dependent relation weight extra =>
    IsWord governor ∧ IsWord dependent ∧ IsWord relation ∧ weight.Canonical ∧ weight ≠ .notANumber ∧ extra = false
  | addDependent governor relation attributes name weight =>
    IsWord governor ∧ IsWord relation ∧ attributes.Plain ∧ (∀ new ∈ name, IsWord new) ∧ weight.Canonical ∧ weight ≠ .notANumber
  | delete node => IsWord node
  | addNode attributes name => attributes.Plain ∧ ∀ new ∈ name, IsWord new
  | setRoots names => names ≠ [] ∧ ∀ name ∈ names, IsWord name
  | killNonRootedNodes => True
  | killAllIncomingEdges node => IsWord node

instance : DecidablePred Plain
  | removeEdge _ => inferInstanceAs (Decidable (_ ∧ _ ∧ _ ∧ _))
  | addEdge .. => inferInstanceAs (Decidable (_ ∧ _ ∧ _ ∧ _ ∧ _ ∧ _))
  | addDependent .. => inferInstanceAs (Decidable (_ ∧ _ ∧ _ ∧ _ ∧ _ ∧ _))
  | delete node | killAllIncomingEdges node => inferInstanceAs (Decidable (IsWord node))
  | addNode .. | setRoots _ => inferInstanceAs (Decidable (_ ∧ _))
  | killNonRootedNodes => inferInstanceAs (Decidable True)

/-- A flag with its value among the arguments, if the value is given. -/
def argument? (name : String) (value : Option String) : Arguments := (given? value).toList.map (name, ·)

/-- The weight among the arguments, unless it is the usual one. -/
def weightArgument (weight : Binary64) : Arguments := if weight.same .one then [] else [("-weight", weight.text)]

/-- The arguments of an edit. -/
def arguments : Edit → Arguments
  | removeEdge r =>
    argument? "-edge" r.edge ++ argument? "-gov" r.governor ++ argument? "-dep" r.dependent ++ argument? "-reln" r.relation
  | addEdge governor dependent relation weight _ =>
    [("-gov", governor), ("-dep", dependent), ("-reln", relation)] ++ weightArgument weight
  | addDependent governor relation attributes name weight =>
    [("-gov", governor), ("-reln", relation), ("-nodearg", attributes.text)] ++ argument? "-name" name ++ weightArgument weight
  | delete node | killAllIncomingEdges node => [("-node", node)]
  | addNode attributes name => [("-nodearg", attributes.text)] ++ argument? "-name" name
  | setRoots _ | killNonRootedNodes => []

/-- The command of an edit. -/
def command : Edit → String
  | removeEdge r => if (given? r.edge).isSome then "removeNamedEdge" else "removeEdge"
  | addEdge .. => "addEdge"
  | addDependent .. => "addDep"
  | delete _ => "delete"
  | addNode .. => "addNode"
  | setRoots _ => "setRoots"
  | killNonRootedNodes => "killNonRootedNodes"
  | killAllIncomingEdges _ => "killAllIncomingEdges"

/-- The attributes of the token that an edit makes; none if it makes none. -/
def attributes : Edit → Attributes
  | addDependent _ _ attributes _ _ | addNode attributes _ => attributes
  | _ => []

/-- The weight of an edit; the usual one if it has none. -/
def weight : Edit → Binary64
  | addEdge _ _ _ weight _ | addDependent _ _ _ _ weight => weight
  | _ => .one

/-- Whether an edit adds an edge beyond the tree. -/
def isExtra : Edit → Bool
  | addEdge _ _ _ _ extra => extra
  | _ => false

/-- What an edit says under its flags, empty names included: all that it says but its weight. -/
def stated : Edit → Arguments
  | removeEdge r =>
    r.edge.toList.map ("-edge", ·) ++ r.governor.toList.map ("-gov", ·) ++ r.dependent.toList.map ("-dep", ·) ++
      r.relation.toList.map ("-reln", ·)
  | addEdge governor dependent relation _ _ => [("-gov", governor), ("-dep", dependent), ("-reln", relation)]
  | addDependent governor relation attributes name _ =>
    [("-gov", governor), ("-reln", relation), ("-nodearg", attributes.text)] ++ name.toList.map ("-name", ·)
  | delete node | killAllIncomingEdges node => [("-node", node)]
  | addNode attributes name => [("-nodearg", attributes.text)] ++ name.toList.map ("-name", ·)
  | setRoots _ | killNonRootedNodes => []

/-- The text of an argument in the line of an edit: attributes stand in quotes if they hold a blank. -/
def printed (argument : String × String) : String := if argument.1 = "-nodearg" then quoteBlank argument.2 else argument.2

/-- What is no attributes stands as it is. -/
theorem printed_of_ne {argument : String × String} (h : argument.1 ≠ "-nodearg") : printed argument = argument.2 := if_neg h

/-- An edit is written as its command and its arguments. -/
theorem words_eq {e : Edit} (hroots : ∀ names, e ≠ setRoots names) :
    e.words = e.command :: e.arguments.flatMap fun argument => [argument.1, printed argument] := by
  have hflag : ∀ name value, name ≠ "-nodearg" →
      (argument? name value).flatMap (fun argument => [argument.1, printed argument]) = flag? name value := by
    intro name value hname
    unfold argument? flag?
    cases given? value with
    | none => rfl
    | some arg => simp [printed_of_ne, hname, flag]
  have hedge := fun value => hflag "-edge" value (by decide)
  have hgovernor := fun value => hflag "-gov" value (by decide)
  have hdependent := fun value => hflag "-dep" value (by decide)
  have hrelation := fun value => hflag "-reln" value (by decide)
  have hname := fun value => hflag "-name" value (by decide)
  have hweight : ∀ w, (weightArgument w).flatMap (fun argument => [argument.1, printed argument]) = weightFlag w := by
    intro w
    unfold weightArgument weightFlag
    split <;> rfl
  cases e with
  | removeEdge r =>
    simp only [arguments, List.flatMap_append, hedge, hgovernor, hdependent, hrelation]
    unfold words command
    cases hgiven : given? r.edge <;> simp [flag?, hgiven, flag]
  | addEdge governor dependent relation weight extra =>
    rw [arguments, List.flatMap_append, hweight]
    rfl
  | addDependent governor relation attributes name weight =>
    rw [arguments, List.flatMap_append, List.flatMap_append, hname, hweight]
    rfl
  | addNode attributes name =>
    rw [arguments, List.flatMap_append, hname]
    rfl
  | setRoots names => exact absurd rfl (hroots names)
  | delete node | killAllIncomingEdges node => rfl
  | killNonRootedNodes => rfl

/-- What stands in a line is what is stated, without the empty names, and the weight. -/
theorem arguments_sublist (e : Edit) : e.arguments.Sublist (e.stated ++ weightArgument e.weight) := by
  have hargument : ∀ name value, (argument? name value).Sublist (value.toList.map (name, ·)) := by
    rintro name (_ | value)
    · exact List.nil_sublist _
    · refine List.Sublist.map _ ?_
      by_cases hempty : value = "" <;> simp [given?, Option.filter, hempty]
  cases e with
  | removeEdge r =>
    exact ((((hargument ..).append (hargument ..)).append (hargument ..)).append (hargument ..)).trans (List.sublist_append_left ..)
  | addEdge governor dependent relation weight extra => exact List.Sublist.refl _
  | addDependent governor relation attributes name weight =>
    exact ((List.Sublist.refl _).append (hargument ..)).append (List.Sublist.refl _)
  | addNode attributes name => exact ((List.Sublist.refl _).append (hargument ..)).trans (List.sublist_append_left ..)
  | setRoots names | killNonRootedNodes => exact List.nil_sublist _
  | delete node | killAllIncomingEdges node => exact List.sublist_append_left ..

/-! ## What is read -/

/-- The flags of what is stated, and of the weight, stand in one order. -/
theorem keys_stated_sublist (e : Edit) : (Pairs.keys (e.stated ++ weightArgument e.weight)).Sublist
    ["-edge", "-gov", "-dep", "-reln", "-node", "-nodearg", "-name", "-weight"] := by
  have happend : ∀ a b : Arguments, Pairs.keys (a ++ b) = Pairs.keys a ++ Pairs.keys b := fun a b => List.map_append
  have hname : ∀ (name : String) (value : Option String), (Pairs.keys (value.toList.map (name, ·))).Sublist [name] := by
    rintro name (_ | value)
    · exact List.nil_sublist _
    · exact List.Sublist.refl _
  have hweight : ∀ w, (Pairs.keys (weightArgument w)).Sublist ["-weight"] := by
    intro w
    unfold weightArgument
    split
    · exact List.nil_sublist _
    · exact List.Sublist.refl _
  rw [happend]
  show (Pairs.keys e.stated ++ _).Sublist (["-edge", "-gov", "-dep", "-reln", "-node", "-nodearg", "-name"] ++ ["-weight"])
  refine List.Sublist.append ?_ (hweight _)
  cases e with
  | removeEdge r =>
    rw [stated, happend, happend, happend]
    exact ((((hname ..).append (hname ..)).append (hname ..)).append (hname ..)).trans (by decide)
  | addDependent governor relation attributes name weight =>
    rw [stated, happend]
    exact ((List.Sublist.refl ["-gov", "-reln", "-nodearg"]).append (hname ..)).trans (by decide)
  | addNode attributes name =>
    rw [stated, happend]
    exact ((List.Sublist.refl ["-nodearg"]).append (hname ..)).trans (by decide)
  | addEdge governor dependent relation weight extra =>
    exact (by decide : ["-gov", "-dep", "-reln"].Sublist ["-edge", "-gov", "-dep", "-reln", "-node", "-nodearg", "-name"])
  | delete node | killAllIncomingEdges node =>
    exact (by decide : ["-node"].Sublist ["-edge", "-gov", "-dep", "-reln", "-node", "-nodearg", "-name"])
  | setRoots _ | killNonRootedNodes => exact List.nil_sublist _

/-- No two arguments of an edit have one flag. -/
theorem nodup_keys_arguments (e : Edit) : (Pairs.keys e.arguments).Nodup :=
  (((arguments_sublist e).map _).trans (keys_stated_sublist e)).nodup (by decide)

/-- The flags of an edit are flags. -/
theorem mem_flags {e : Edit} {name : String} (h : name ∈ Pairs.keys e.arguments) : name ∈ flags := by
  have hall : ∀ name ∈ ["-edge", "-gov", "-dep", "-reln", "-node", "-nodearg", "-name", "-weight"], name ∈ flags := by decide
  exact hall name ((((arguments_sublist e).map _).trans (keys_stated_sublist e)).subset h)

/-- A flag is looked up. -/
theorem lookup_argument? (key name : String) (value : Option String) :
    (argument? name value).lookup key = if key == name then given? value else none := by
  unfold argument?
  cases given? value with
  | none => simp
  | some arg =>
    rw [Option.toList_some, List.map_singleton, Pairs.lookup_cons_eq]
    rfl

/-- A weight is looked up as such. -/
theorem lookup_weightArgument {key : String} (h : key ≠ "-weight") (w : Binary64) : (weightArgument w).lookup key = none := by
  unfold weightArgument
  split
  · rfl
  · rw [Pairs.lookup_cons_eq, if_neg (by simpa using h)]
    rfl

/-- A command is a word. -/
theorem isWord_command (e : Edit) : IsWord e.command := by
  have hword : ∀ command ∈ ["removeNamedEdge", "removeEdge", "addEdge", "addDep", "delete", "addNode", "setRoots",
      "killNonRootedNodes", "killAllIncomingEdges"], IsWord command := by decide
  refine hword _ ?_
  cases e with
  | removeEdge r =>
    rw [command]
    split <;> simp
  | _ => simp [command]

/-- A line is taken apart into its first word and the texts that follow it. -/
theorem line_taken {e : Edit} {word : String} {texts : List String} (hline : e.words = word :: texts) (hword : IsWord word)
    (htexts : ∀ text ∈ texts, text.toList ≠ [] ∧ IsTrimmed text.toList) :
    trim e.line.toList = e.line.toList ∧
      firstWord? e.line.toList = some (word.toList, [' '].intercalate (texts.map String.toList)) := by
  have htoList : e.line.toList = [' '].intercalate (word.toList :: texts.map String.toList) := by
    rw [line, hline, String.toList_intercalate]
    rfl
  have hjoined : ∀ pieces : List String, (∀ text ∈ pieces, text.toList ≠ [] ∧ IsTrimmed text.toList) →
      IsTrimmed ([' '].intercalate (pieces.map String.toList)) := by
    intro pieces h
    refine isTrimmed_intercalate (List.forall_mem_map.2 fun text ht => ?_) (List.forall_mem_map.2 fun text ht => ?_)
    · exact (h text ht).1
    · exact (h text ht).2
  have hwhole := hword.isRun.isTrimmed
  have hall := hjoined (word :: texts) (List.forall_mem_cons.2 ⟨hwhole, htexts⟩)
  rw [htoList]
  exact ⟨trim_eq_self hall, firstWord?_intercalate hwhole.1 hword.isRun.2 (hjoined texts htexts).first⟩

/-- Whether the line of an edit comes apart into its command and its arguments. -/
def ComesApart (e : Edit) : Prop :=
  ∃ rest, trim e.line.toList = e.line.toList ∧ firstWord? e.line.toList = some (e.command.toList, rest) ∧
    splitArguments (String.ofList rest) = .ok (e.arguments.flatMap fun argument => [argument.1, argument.2])

/-- Flags stand in a line with their values. -/
theorem forall₂_standing {arguments : Arguments} (hflags : ∀ name ∈ Pairs.keys arguments, name ∈ flags)
    (h : ∀ argument ∈ arguments, Stands (printed argument) argument.2) :
    List.Forall₂ Stands (arguments.flatMap fun argument => [argument.1, printed argument])
      (arguments.flatMap fun argument => [argument.1, argument.2]) := by
  induction arguments with
  | nil => exact .nil
  | cons argument arguments ih =>
    obtain ⟨hflag, hflags⟩ := List.forall_mem_cons.1 hflags
    obtain ⟨hfirst, hrest⟩ := List.forall_mem_cons.1 h
    exact .cons (Written.word (isWord_of_mem_flags hflag)).stands (.cons hfirst (ih hflags hrest))

/-- The quotes in a line are those in the texts of its arguments. -/
theorem count_quote_texts {arguments : Arguments} (hflags : ∀ name ∈ Pairs.keys arguments, name ∈ flags) :
    ([' '].intercalate ((arguments.flatMap fun argument => [argument.1, printed argument]).map String.toList)).count '"' =
      (arguments.map fun argument => (printed argument).toList.count '"').sum := by
  rw [count_intercalate (by decide)]
  induction arguments with
  | nil => rfl
  | cons argument arguments ih =>
    obtain ⟨hflag, hflags⟩ := List.forall_mem_cons.1 hflags
    have hnone : argument.1.toList.count '"' = 0 :=
      List.count_eq_zero_of_not_mem fun hmem => ((isWord_of_mem_flags hflag).2 _ hmem).2 rfl
    have ih := ih hflags
    simp only [List.flatMap_cons, List.map_append, List.map_cons, List.map_nil, List.sum_append, List.sum_cons, List.sum_nil, hnone, ih]
    omega

/-- The quotes in the line of an edit are those behind its command. -/
theorem count_quote_line {e : Edit} (hroots : ∀ names, e ≠ setRoots names) :
    e.line.toList.count '"' =
      ([' '].intercalate ((e.arguments.flatMap fun argument => [argument.1, printed argument]).map String.toList)).count '"' := by
  have hnone : e.command.toList.count '"' = 0 := List.count_eq_zero_of_not_mem fun hmem => ((isWord_command e).2 _ hmem).2 rfl
  have htoList : e.line.toList = [' '].intercalate (e.words.map String.toList) := String.toList_intercalate ..
  rw [htoList, words_eq hroots, count_intercalate (by decide), count_intercalate (by decide), List.map_cons, List.map_cons,
    List.sum_cons, hnone, Nat.zero_add]

/-- A line in which arguments stand is taken apart into its command and them. -/
theorem line_taken_of_standing {e : Edit} (hroots : ∀ names, e ≠ setRoots names)
    (h : ∀ argument ∈ e.arguments, Stands (printed argument) argument.2) :
    trim e.line.toList = e.line.toList ∧ firstWord? e.line.toList = some (e.command.toList,
      [' '].intercalate ((e.arguments.flatMap fun argument => [argument.1, printed argument]).map String.toList)) := by
  have htexts : ∀ {texts args : List String}, List.Forall₂ Stands texts args →
      ∀ text ∈ texts, text.toList ≠ [] ∧ IsTrimmed text.toList := by
    intro texts args h
    induction h with
    | nil => exact fun _ h => absurd h List.not_mem_nil
    | cons htext _ ih => exact List.forall_mem_cons.2 ⟨htext.isTrimmed, ih⟩
  exact line_taken (words_eq hroots) (isWord_command e) (htexts (forall₂_standing (fun _ => mem_flags) h))

/-- A line comes apart if its arguments stand in it, every quote is closed, and none follows an argument that begins with its only
quote. -/
theorem comesApart_of_standing {e : Edit} (hroots : ∀ names, e ≠ setRoots names)
    (h : ∀ argument ∈ e.arguments, Stands (printed argument) argument.2) (hclosed : e.line.toList.count '"' % 2 = 0)
    (hlate : e.words.Pairwise fun s t => Opens s → '"' ∉ t.toList) : e.ComesApart := by
  obtain ⟨htrim, hfirst⟩ := line_taken_of_standing hroots h
  rw [count_quote_line hroots] at hclosed
  rw [words_eq hroots] at hlate
  exact ⟨_, htrim, hfirst, splitArguments_standing (forall₂_standing (fun _ => mem_flags) h) (List.pairwise_cons.1 hlate).2 hclosed⟩

/-- The weight is looked up among the arguments of an edit. -/
theorem lookup_weight (e : Edit) : e.arguments.lookup "-weight" = (weightArgument e.weight).lookup "-weight" := by
  have hone : weightArgument .one = [] := if_pos (by decide)
  cases e <;> simp [arguments, Edit.weight, hone, List.lookup_append, lookup_argument?, Pairs.lookup_cons_eq]

/-- The weight of an edit is read. -/
theorem weightOf_eq {e : Edit} (hc : e.weight.Canonical) (hn : e.weight ≠ .notANumber) (line : String) :
    weightOf line e.arguments = .ok e.weight := by
  unfold weightOf
  rw [lookup_weight, weightArgument]
  by_cases hsame : e.weight.same .one = true
  · rw [if_pos hsame, eq_one_of_same hsame]
    rfl
  · rw [if_neg hsame, Pairs.lookup_cons_eq]
    simp [Binary64.float?_render hc hn]

/-- A line that comes apart is read as its command with its arguments and its weight. -/
theorem ofLine_eq {e : Edit} (h : e.ComesApart) (hc : e.weight.Canonical) (hn : e.weight ≠ .notANumber)
    (hroots : ∀ names, e ≠ setRoots names) :
    ofLine e.line = { line := e.line, word := e.command, args := e.arguments, weight := e.weight : Command }.edit
      (String.ofList (lower e.command.toList)) := by
  have hlowered : String.ofList (lower e.command.toList) ≠ "setroots" := by
    have hall : ∀ command ∈ ["removeNamedEdge", "removeEdge", "addEdge", "addDep", "delete", "addNode", "killNonRootedNodes",
        "killAllIncomingEdges"], String.ofList (lower command.toList) ≠ "setroots" := by decide
    refine hall _ ?_
    cases e with
    | removeEdge r =>
      rw [command]
      split <;> simp
    | setRoots names => exact absurd rfl (hroots names)
    | _ => simp [command]
  obtain ⟨rest, htrim, hfirst, hsplit⟩ := h
  have hargs : readFlags e.line [] (e.arguments.flatMap fun argument => [argument.1, argument.2]) = .ok e.arguments :=
    readFlags_arguments e.line (fun _ => mem_flags) (nodup_keys_arguments e)
  unfold ofLine
  simp only [htrim, hfirst, String.ofList_toList, if_neg hlowered, hsplit]
  show readFlags e.line [] _ >>= _ = _
  rw [hargs]
  show weightOf e.line e.arguments >>= _ = _
  rw [weightOf_eq hc hn]
  rfl

/-- A value that is not empty is what a command needs. -/
theorem require_eq {c : Command} {flag value : String} (hne : value ≠ "") (h : c.args.lookup flag = some value) :
    c.require flag = .ok ⟨value, by simp [given?, hne]⟩ := by
  have hgiven : (given? (some value)).isSome = true := by simp [given?, hne]
  unfold Command.require
  rw [h]
  exact dif_pos hgiven

/-- The attributes of an edit are given. -/
theorem text_ne_empty (attributes : Attributes) : attributes.text ≠ "" := by
  rw [← String.toList_inj.ne, Attributes.toList_text]
  exact List.cons_ne_nil _ _

/-! ## The round trip -/

/-- A name that is not empty if it is there is given if it is there. -/
theorem given?_eq_self (h : ∀ name ∈ value, name ≠ "") : given? value = value := by
  cases value with
  | none => rfl
  | some name => exact Option.filter_some_pos (by simpa using h name rfl)

/-- A removal is read from its command and its arguments. -/
theorem edit_removeEdge (r : Removal) (hedge : ∀ name ∈ r.edge, name ≠ "") (hgovernor : ∀ name ∈ r.governor, name ≠ "")
    (hdependent : ∀ name ∈ r.dependent, name ≠ "") (hrelation : ∀ name ∈ r.relation, name ≠ "") (c : Command)
    (hargs : c.args = (removeEdge r).arguments) :
    c.edit (String.ofList (lower (removeEdge r).command.toList)) = .ok (removeEdge r) := by
  obtain ⟨edge, governor, dependent, relation, targeted⟩ := r
  have hlookup : ∀ key, c.args.lookup key =
      ((((if key == "-edge" then edge else none).or (if key == "-gov" then governor else none)).or
        (if key == "-dep" then dependent else none)).or (if key == "-reln" then relation else none)) := by
    intro key
    simp only [hargs, arguments, List.lookup_append, lookup_argument?, given?_eq_self hedge, given?_eq_self hgovernor,
      given?_eq_self hdependent, given?_eq_self hrelation]
  cases edge with
  | some edge =>
    have hcommand : (removeEdge ⟨some edge, governor, dependent, relation, targeted⟩).command = "removeNamedEdge" := by
      rw [command, given?_eq_self hedge]
      rfl
    rw [hcommand, show String.ofList (lower "removeNamedEdge".toList) = "removenamededge" by decide]
    refine bind_eq_ok_iff.2 ⟨_, require_eq (hedge edge rfl) (by rw [hlookup]; rfl), ?_⟩
    simp [hlookup]
    rfl
  | none =>
    -- Without a name for the edge, both of its ends are given.
    cases governor with
    | none => exact absurd targeted (by simp [given?])
    | some governor =>
      cases dependent with
      | none => exact absurd targeted (by simp [given?])
      | some dependent =>
        show c.edit (String.ofList (lower "removeEdge".toList)) = _
        rw [show String.ofList (lower "removeEdge".toList) = "removeedge" by decide]
        refine bind_eq_ok_iff.2 ⟨_, require_eq (hgovernor governor rfl) (by rw [hlookup]; rfl),
          bind_eq_ok_iff.2 ⟨_, require_eq (hdependent dependent rfl) (by rw [hlookup]; rfl), ?_⟩⟩
        simp [hlookup]
        rfl

/-- An edit is read from its command and its arguments, if it says nothing empty and its attributes come apart. -/
theorem edit_arguments {e : Edit} (hfilled : ∀ argument ∈ e.stated, argument.2 ≠ "") (hattributes : e.attributes.Parted)
    (hextra : e.isExtra = false) (hroots : ∀ names, e ≠ setRoots names) {c : Command} (hargs : c.args = e.arguments)
    (hweight : c.weight = e.weight) : c.edit (String.ofList (lower e.command.toList)) = .ok e := by
  have hoption : ∀ {name : String} {value : Option String}, (∀ argument ∈ value.toList.map (name, ·), argument.2 ≠ "") →
      ∀ text ∈ value, text ≠ "" := fun h text htext => h _ (List.mem_map_of_mem (Option.mem_toList.2 htext))
  cases e with
  | removeEdge r =>
    simp only [stated, List.forall_mem_append] at hfilled
    obtain ⟨⟨⟨hedge, hgovernor⟩, hdependent⟩, hrelation⟩ := hfilled
    exact edit_removeEdge r (hoption hedge) (hoption hgovernor) (hoption hdependent) (hoption hrelation) c hargs
  | addEdge governor dependent relation weight extra =>
    obtain rfl : extra = false := hextra
    simp only [stated, List.forall_mem_cons, List.not_mem_nil, false_implies, implies_true, and_true] at hfilled
    obtain ⟨hgovernor, hdependent, hrelation⟩ := hfilled
    rw [command, show String.ofList (lower "addEdge".toList) = "addedge" by decide]
    refine bind_eq_ok_iff.2 ⟨_, require_eq hgovernor (by rw [hargs]; rfl),
      bind_eq_ok_iff.2 ⟨_, require_eq hdependent (by rw [hargs]; rfl),
        bind_eq_ok_iff.2 ⟨_, require_eq hrelation (by rw [hargs]; rfl), ?_⟩⟩⟩
    rw [hweight]
    rfl
  | addDependent governor relation attributes name weight =>
    simp only [stated, List.forall_mem_append, List.forall_mem_cons, List.not_mem_nil, false_implies, implies_true, and_true] at hfilled
    obtain ⟨⟨hgovernor, hrelation, -⟩, hname⟩ := hfilled
    have hnamed : c.args.lookup "-name" = name := by
      simp [hargs, arguments, List.lookup_append, lookup_argument?, lookup_weightArgument, Pairs.lookup_cons_eq,
        given?_eq_self (hoption hname)]
    rw [command, show String.ofList (lower "addDep".toList) = "adddep" by decide]
    refine bind_eq_ok_iff.2 ⟨_, require_eq hgovernor (by rw [hargs]; rfl),
      bind_eq_ok_iff.2 ⟨_, require_eq hrelation (by rw [hargs]; rfl),
        bind_eq_ok_iff.2 ⟨_, require_eq (text_ne_empty attributes) (by rw [hargs]; rfl),
          bind_eq_ok_iff.2 ⟨_, Attributes.ofText_braces hattributes, ?_⟩⟩⟩⟩
    rw [hnamed, hweight]
    rfl
  | delete node =>
    rw [command, show String.ofList (lower "delete".toList) = "delete" by decide]
    exact bind_eq_ok_iff.2 ⟨_, require_eq (hfilled _ (List.mem_singleton_self _)) (by rw [hargs]; rfl), rfl⟩
  | addNode attributes name =>
    simp only [stated, List.forall_mem_append] at hfilled
    have hnamed : c.args.lookup "-name" = name := by
      simp [hargs, arguments, lookup_argument?, Pairs.lookup_cons_eq, given?_eq_self (hoption hfilled.2)]
    rw [command, show String.ofList (lower "addNode".toList) = "addnode" by decide]
    refine bind_eq_ok_iff.2 ⟨_, require_eq (text_ne_empty attributes) (by rw [hargs]; rfl),
      bind_eq_ok_iff.2 ⟨_, Attributes.ofText_braces hattributes, ?_⟩⟩
    rw [hnamed]
    rfl
  | setRoots names => exact absurd rfl (hroots names)
  | killNonRootedNodes =>
    rw [command, show String.ofList (lower "killNonRootedNodes".toList) = "killnonrootednodes" by decide]
    rfl
  | killAllIncomingEdges node =>
    rw [command, show String.ofList (lower "killAllIncomingEdges".toList) = "killallincomingedges" by decide]
    exact bind_eq_ok_iff.2 ⟨_, require_eq (hfilled _ (List.mem_singleton_self _)) (by rw [hargs]; rfl), rfl⟩

/-- The line that sets roots is read as such. -/
theorem ofLine_setRoots {names : List String} (hne : names ≠ []) (hnames : ∀ name ∈ names, IsRun name) :
    ofLine (setRoots names).line = .ok (setRoots names) := by
  have hwords : (setRoots names).words = "setRoots" :: names := by
    cases names with
    | nil => exact absurd rfl hne
    | cons name names => rfl
  have htexts : ∀ name ∈ names, name.toList ≠ [] ∧ IsTrimmed name.toList := fun name hname => (hnames name hname).isTrimmed
  have hread : (Text.words ([' '].intercalate (names.map String.toList))).map String.ofList = names := by
    rw [words_intercalate (List.forall_mem_map.2 fun name hname => (htexts name hname).1)
      (List.forall_mem_map.2 fun name hname => (hnames name hname).2), List.map_map]
    simp [Function.comp_def]
  have hsome : names.isEmpty = false := by simpa using hne
  have hlowered : String.ofList (lower "setRoots".toList) = "setroots" := by decide
  obtain ⟨htrim, hfirst⟩ := line_taken hwords (by decide) htexts
  unfold ofLine
  simp only [htrim, hfirst, hlowered, if_true, hread, hsome]
  rfl

/-- The line of an edit is read as the edit, if the edit says nothing empty and its arguments come apart again. -/
theorem ofLine_of_standing {e : Edit} (hroots : ∀ names, e ≠ setRoots names) (hfilled : ∀ argument ∈ e.stated, argument.2 ≠ "")
    (hattributes : e.attributes.Parted) (hextra : e.isExtra = false) (hc : e.weight.Canonical) (hn : e.weight ≠ .notANumber)
    (h : ∀ argument ∈ e.arguments, Stands (printed argument) argument.2) (hclosed : e.line.toList.count '"' % 2 = 0)
    (hlate : e.words.Pairwise fun s t => Opens s → '"' ∉ t.toList) : ofLine e.line = .ok e := by
  rw [ofLine_eq (comesApart_of_standing hroots h hclosed hlate) hc hn hroots]
  exact edit_arguments hfilled hattributes hextra hroots rfl rfl

namespace Plain

variable {e : Edit}

/-- The attributes of an edit that can be written can be. -/
theorem attributes (h : e.Plain) : e.attributes.Plain := by
  have hnone : Attributes.Plain [] := by decide
  cases e with
  | addDependent governor relation attributes name weight => exact h.2.2.1
  | addNode attributes name => exact h.1
  | _ => exact hnone

/-- The weight of an edit that can be written is a number. -/
theorem weight (h : e.Plain) : e.weight.Canonical ∧ e.weight ≠ .notANumber := by
  cases e with
  | addEdge governor dependent relation weight extra => exact ⟨h.2.2.2.1, h.2.2.2.2.1⟩
  | addDependent governor relation attributes name weight => exact ⟨h.2.2.2.2.1, h.2.2.2.2.2⟩
  | _ => exact (by decide : Binary64.one.Canonical ∧ Binary64.one ≠ .notANumber)

/-- An edit that can be written adds no edge beyond the tree. -/
theorem isExtra (h : e.Plain) : e.isExtra = false := by
  cases e with
  | addEdge governor dependent relation weight extra => exact h.2.2.2.2.2
  | _ => rfl

/-- What an edit that can be written states is not empty, and is words and attributes. -/
theorem written (h : e.Plain) {argument : String × String} (hmem : argument ∈ e.stated) :
    argument.2 ≠ "" ∧ Written (printed argument) argument.2 := by
  have hword : ∀ {name text : String}, name ≠ "-nodearg" → IsWord text → text ≠ "" ∧ Written (printed (name, text)) text :=
    fun hname htext => ⟨htext.1, by rw [printed_of_ne hname]; exact .word htext⟩
  have hoption : ∀ {name : String} {value : Option String}, name ≠ "-nodearg" → (∀ text ∈ value, IsWord text) →
      argument ∈ value.toList.map (name, ·) → argument.2 ≠ "" ∧ Written (printed argument) argument.2 := by
    intro name value hname hvalue hmem
    obtain ⟨text, htext, rfl⟩ := List.mem_map.1 hmem
    exact hword hname (hvalue text (Option.mem_toList.1 htext))
  cases e with
  | removeEdge r =>
    obtain ⟨hedge, hgovernor, hdependent, hrelation⟩ := h
    simp only [stated, List.mem_append] at hmem
    rcases hmem with ((hmem | hmem) | hmem) | hmem
    · exact hoption (by decide) hedge hmem
    · exact hoption (by decide) hgovernor hmem
    · exact hoption (by decide) hdependent hmem
    · exact hoption (by decide) hrelation hmem
  | addEdge governor dependent relation weight extra =>
    obtain ⟨hgovernor, hdependent, hrelation, -⟩ := h
    simp only [stated, List.mem_cons, List.not_mem_nil, or_false] at hmem
    rcases hmem with rfl | rfl | rfl
    · exact hword (by decide) hgovernor
    · exact hword (by decide) hdependent
    · exact hword (by decide) hrelation
  | addDependent governor relation attributes name weight =>
    obtain ⟨hgovernor, hrelation, hattributes, hname, -⟩ := h
    simp only [stated, List.mem_append, List.mem_cons, List.not_mem_nil, or_false] at hmem
    rcases hmem with (rfl | rfl | rfl) | hmem
    · exact hword (by decide) hgovernor
    · exact hword (by decide) hrelation
    · exact ⟨text_ne_empty attributes, Attributes.written_quoteBlank hattributes⟩
    · exact hoption (by decide) hname hmem
  | addNode attributes name =>
    simp only [stated, List.mem_append, List.mem_singleton] at hmem
    rcases hmem with rfl | hmem
    · exact ⟨text_ne_empty attributes, Attributes.written_quoteBlank h.1⟩
    · exact hoption (by decide) h.2 hmem
  | delete node | killAllIncomingEdges node =>
    obtain rfl := List.mem_singleton.1 hmem
    exact hword (by decide) (show IsWord node from h)
  | setRoots _ | killNonRootedNodes => cases hmem

end Plain

/-- The weight of an edit is written as a word. -/
theorem written_weight (hc : w.Canonical) {argument : String × String} (h : argument ∈ weightArgument w) :
    Written (printed argument) argument.2 := by
  unfold weightArgument at h
  split at h
  · cases h
  · obtain rfl := List.mem_singleton.1 h
    exact .word (isWord_weight hc)

/-- The line of an edit is read as the edit. -/
theorem ofLine_line (e : Edit) (h : e.Plain) : ofLine e.line = .ok e := by
  by_cases hroots : ∃ names, e = setRoots names
  · obtain ⟨names, rfl⟩ := hroots
    exact ofLine_setRoots h.1 fun name hname => (h.2 name hname).isRun
  have hroots := not_exists.1 hroots
  have hwritten : ∀ argument ∈ e.arguments, Written (printed argument) argument.2 := fun argument hmem =>
    (List.mem_append.1 ((arguments_sublist e).subset hmem)).elim (fun hmem => (h.written hmem).2) (written_weight h.weight.1)
  have hwords : ∀ word ∈ e.words, ∃ arg, Written word arg := by
    rw [words_eq hroots]
    refine List.forall_mem_cons.2 ⟨⟨_, .word (isWord_command e)⟩, fun text htext => ?_⟩
    obtain ⟨argument, hmem, htext⟩ := List.mem_flatMap.1 htext
    simp only [List.mem_cons, List.not_mem_nil, or_false] at htext
    rcases htext with rfl | rfl
    · exact ⟨_, .word (isWord_of_mem_flags (mem_flags (List.mem_map_of_mem hmem)))⟩
    · exact ⟨_, hwritten argument hmem⟩
  have hclosed : e.line.toList.count '"' % 2 = 0 := by
    rw [line, String.toList_intercalate, show (" " : String).toList = [' '] from rfl, count_intercalate (by decide)]
    refine Nat.mod_eq_zero_of_dvd (List.dvd_sum fun n hn => ?_)
    obtain ⟨cs, hcs, rfl⟩ := List.mem_map.1 hn
    obtain ⟨word, hword, rfl⟩ := List.mem_map.1 hcs
    obtain ⟨arg, hwrittenWord⟩ := hwords word hword
    exact Nat.dvd_of_mod_eq_zero hwrittenWord.count_quote
  refine ofLine_of_standing hroots (fun argument hmem => (h.written hmem).1) h.attributes.parted h.isExtra h.weight.1 h.weight.2
    (fun argument hmem => (hwritten argument hmem).stands) hclosed (List.pairwise_of_forall_mem_list fun s hs t _ hopens => ?_)
  obtain ⟨arg, hword⟩ := hwords s hs
  exact absurd hopens hword.not_opens

/-- A token whose word holds a space and whose lemma holds a colon comes out again, with its name and half a weight. -/
theorem ofLine_line_spaced :
    (addDependent "verb" "advmod" [("word", "at last"), ("lemma", "at:last")] (some "late") (.finite false (2 ^ 52) (-53))).Plain ∧
      ofLine (addDependent "verb" "advmod" [("word", "at last"), ("lemma", "at:last")] (some "late")
          (.finite false (2 ^ 52) (-53))).line =
        .ok (addDependent "verb" "advmod" [("word", "at last"), ("lemma", "at:last")] (some "late") (.finite false (2 ^ 52) (-53))) :=
  ⟨by decide, ofLine_line _ (by decide)⟩

end Treebank.Edit
