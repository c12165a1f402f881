import LineBasic.Lowering.Statement
import LineBasic.Proofs.Grammar.Names
import LineBasic.Proofs.Respelling

/-!
# Labels and jumps

A jump names a line or a label, and its C text jumps to the C label of that name, with which the C
text of a line or a label ends (`Statement.exists_toC_of_cLabel?`). Not every number that stands for
a line in a jump can be the number of a line: behind the word that jumps it is read as a number
within a line, which may have a point in it. Without a point, what a jump names is always a name
that some listing has for a line or a label (`target_isLabel_iff`), whether or not something is
wrong with the listing and whether or not this listing has it.

Different names have different C labels, although a number gets an underscore in front and a name
may look like anything that is a word: no word starts with an underscore. So a jump goes to a line
or a label if and only if it names it, and no C label is one of the names that the stack of return
addresses takes (`cLabel_eq_iff`).
-/

namespace LineBasic

/-! ## Targets and labels -/

namespace Statement

/-- What some statements and the statements in them jump to. -/
def listTargets (statements : List Statement) : List JumpTarget :=
  (listNodes statements).flatMap targets

/-- The C label that a statement becomes, if it becomes one. A line with data becomes a variable. -/
def cLabel? : Statement → Option String
  | lineNumber name none _ => some (CText.label name)
  | label name _ => some (CText.label name)
  | _ => none

/-- A C label ends the C text of the statement that becomes it. -/
theorem exists_toC_of_cLabel? {statement : Statement} {label : String}
    (h : statement.cLabel? = some label) (style : Style) :
    ∃ opening, statement.toC style = opening ++ (label ++ ":;") := by
  cases statement with
  | lineNumber name data loc =>
    cases data with
    | none =>
      cases h
      exact ⟨"", by rw [toC, String.empty_append]⟩
    | some data => cases h
  | label name loc =>
    cases h
    exact ⟨"\n" ++ CText.separator ++ "\n", by rw [toC, String.append_assoc]⟩
  | _ => cases h

/-- The C label of a statement does not depend on where it stands. -/
@[simp]
theorem cLabel?_relocate (place : Location → Location) (statement : Statement) :
    (statement.relocate place).cLabel? = statement.cLabel? := by
  cases statement with
  | lineNumber name data loc => cases data <;> rfl
  | _ => rfl

/-- A C label comes from a line number or a name. -/
theorem exists_name_of_cLabel? {statement : Statement} {label : String}
    (h : statement.isNamed = true) (hlabel : statement.cLabel? = some label) :
    ∃ name, CText.label name = label ∧ (isDigits name = true ∨ isName name = true) := by
  cases statement with
  | lineNumber name data loc =>
    cases data with
    | none =>
      cases hlabel
      exact ⟨name, rfl, .inl ((Bool.and_eq_true _ _).mp h).1⟩
    | some data => cases hlabel
  | label name loc =>
    cases hlabel
    exact ⟨name, rfl, .inr h⟩
  | _ => cases hlabel

/-- The targets of a statement have a spelling. -/
theorem isSpellable_of_mem_targets {statement : Statement} (h : statement.isNamed = true)
    {target : JumpTarget} (htarget : target ∈ statement.targets) :
    target.isSpellable = true := by
  have hall (hrule : statement.isNamed = statement.targets.all JumpTarget.isSpellable) :
      target.isSpellable = true :=
    List.all_eq_true.1 (hrule ▸ h) target htarget
  cases statement with
  | lineNumber | label | dim | loop => cases htarget
  | _ => exact hall rfl

end Statement

/-- What a program jumps to is written as a number or as a name. -/
theorem isSpellable_of_mem_listTargets {bytes : List UInt8} {target : JumpTarget}
    (h : target ∈ Statement.listTargets (parse bytes).program) : target.isSpellable = true := by
  obtain ⟨node, hnode, htarget⟩ := List.mem_flatMap.1 h
  exact Statement.isSpellable_of_mem_targets (isNamed_of_mem_program hnode) htarget

/-! ## Points in labels -/

namespace CText

/-- The C label of a name has the characters of the name, and perhaps an underscore. -/
theorem mem_label {name : String} {c : Char} (h : c ≠ '_') :
    c ∈ (label name).toList ↔ c ∈ name.toList := by
  have hunderscore : c ∈ ("_" ++ name).toList ↔ c ∈ name.toList := by simp [h]
  unfold label
  split
  · split
    · exact hunderscore
    · rfl
  · rfl

end CText

/-- What lines and labels are named has no point in it. -/
theorem point_not_mem_of_isLabel {name : String}
    (h : isDigits name = true ∨ isName name = true) : '.' ∉ name.toList := by
  intro hmem
  rcases h with hdigits | hname
  · exact absurd (isDigit_of_mem hdigits hmem) (by decide)
  · exact absurd (isAlphanum_of_mem hname hmem) (by decide)

/-- A number without a point in it is one that a line can have. -/
theorem isDigits_of_isNumeral {text : String} (h : isNumeral text = true)
    (hpoint : '.' ∉ text.toList) : isDigits text = true := by
  rcases isDigits_or_exists_of_isNumeral h with hdigits | ⟨whole, fraction, htext, -⟩
  · exact hdigits
  · exact absurd (by simp [htext]) hpoint

/-! ## Labels of listings -/

/-- A listing with one statement in it, a line or a label of the name. -/
theorem exists_cLabel?_eq {name : String} (h : isDigits name = true ∨ isName name = true) :
    ∃ bytes, ∃ statement ∈ (parse bytes).program, statement.cLabel? = some (CText.label name) := by
  -- the listing is what the statement is written as
  have hparse (statement : Statement) (hlabel : statement.cLabel? = some (CText.label name))
      (hspellable : statement.isSpellable (fun _ => false) = true)
      (hlaid : statement.isLaidOut = true) (hcond : statement.isCond = false)
      (hwithin : statement.Within (fun levels => Expr.FitsIn levels) maxNesting) :
      ∃ bytes, ∃ statement ∈ (parse bytes).program,
        statement.cLabel? = some (CText.label name) := by
    have hlaid' : Statement.listIsLaidOut true true [statement] = true := by
      simp [Statement.listIsLaidOut, hlaid, hcond]
    have hspellable' : Statement.listIsSpellable (fun _ => false) [statement] = true := by
      simp [Statement.listIsSpellable, hspellable]
    obtain ⟨-, hsame⟩ := parse_listing 0 hlaid' hspellable' (by simpa using hwithin)
    obtain ⟨found, hprogram, hfound⟩ := List.map_eq_singleton_iff.1 hsame
    refine ⟨_, found, hprogram ▸ List.mem_singleton_self found, ?_⟩
    have hplaced := congrArg Statement.cLabel? hfound
    rwa [Statement.unplaced, Statement.unplaced, Statement.cLabel?_relocate,
      Statement.cLabel?_relocate, hlabel] at hplaced
  rcases h with hdigits | hname
  · exact hparse (.lineNumber name none .start) rfl (by simpa [Statement.isSpellable] using hdigits)
      rfl rfl (.of_nil rfl rfl rfl)
  · exact hparse (.label name .start) rfl hname rfl rfl (.of_nil rfl rfl rfl)

/-- What a jump names is the number of a line or the name of a label if and only if it has no point
in it, and if and only if the C label that the jump goes to is the C label of a line or a label of
some listing. -/
theorem target_isLabel_iff {bytes : List UInt8} {target : JumpTarget}
    (h : target ∈ Statement.listTargets (parse bytes).program) :
    (isDigits target.name = true ∨ isName target.name = true ↔ '.' ∉ target.name.toList) ∧
      ((∃ other, ∃ statement ∈ Statement.listNodes (parse other).program, ∃ label,
          statement.cLabel? = some label ∧ target.toC = "goto " ++ label ++ ";") ↔
        '.' ∉ target.name.toList) := by
  have hiff : isDigits target.name = true ∨ isName target.name = true ↔
      '.' ∉ target.name.toList := by
    refine ⟨point_not_mem_of_isLabel, fun hpoint => ?_⟩
    have hspellable := isSpellable_of_mem_listTargets h
    rw [JumpTarget.isSpellable, Bool.or_eq_true] at hspellable
    exact hspellable.imp_left fun hnumeral => isDigits_of_isNumeral hnumeral hpoint
  refine ⟨hiff, ?_, fun hpoint => ?_⟩
  · rintro ⟨other, statement, hstatement, label, hlabel, htoC⟩
    obtain ⟨name, rfl, hname⟩ :=
      Statement.exists_name_of_cLabel? (isNamed_of_mem_program hstatement) hlabel
    have hsame : CText.label target.name = CText.label name := by
      simpa [JumpTarget.toC, CText.goto, String.append_assoc] using htoC
    -- the two C labels have the same points, and so have the names
    rw [← CText.mem_label (by decide), hsame, CText.mem_label (by decide)]
    exact point_not_mem_of_isLabel hname
  · obtain ⟨other, statement, hstatement, hlabel⟩ := exists_cLabel?_eq (hiff.2 hpoint)
    have hnode : statement ∈ Statement.listNodes (parse other).program :=
      Statement.mem_listNodes.2 ⟨statement, hstatement, statement.mem_nodes_self⟩
    exact ⟨other, statement, hnode, _, hlabel, rfl⟩

/-- A named label in an arm of `IF`. -/
theorem target_isLabel_iff_arm :
    let bytes := Utf8.encode "10 IF A THEN 20 ELSE GOSUB *L"
    let target : JumpTarget := ⟨"L", ⟨1, 28⟩⟩
    target ∈ Statement.listTargets (parse bytes).program ∧
      (isDigits target.name = true ∨ isName target.name = true ↔ '.' ∉ target.name.toList) ∧
      ((∃ other, ∃ statement ∈ Statement.listNodes (parse other).program, ∃ label,
          statement.cLabel? = some label ∧ target.toC = "goto " ++ label ++ ";") ↔
        '.' ∉ target.name.toList) := by
  intro bytes target
  have hmem : target ∈ Statement.listTargets (parse bytes).program := by decide +kernel
  exact ⟨hmem, target_isLabel_iff hmem⟩

/-- Nothing is wrong with a jump to a number that has a point in it, which is neither the number of
a line nor the name of a label. -/
theorem target_with_point :
    ∃ bytes, bytes = Utf8.encode "10 GOTO 1.5" ∧ (parse bytes).isClean = true ∧
      ∃ target ∈ Statement.listTargets (parse bytes).program,
        isDigits target.name = false ∧ isWordText target.name.toList = false := by
  refine ⟨_, rfl, by decide +kernel, ⟨"1.5", ⟨1, 9⟩⟩, by decide +kernel, ?_, ?_⟩
  · decide
  · decide

/-! ## Different names -/

namespace Statement

/-- What a line is numbered or a label is named. -/
def label? : Statement → Option String
  | lineNumber name _ _ => some name
  | label name _ => some name
  | _ => none

/-- What lines, labels and jumps are named in some statements and in the statements in them. -/
def listLabels (statements : List Statement) : List String :=
  (listNodes statements).flatMap fun node => node.label?.toList ++ node.targets.map (·.name)

/-- The labels of a program are those it defines and those it jumps to. -/
theorem mem_listLabels {statements : List Statement} {name : String} :
    name ∈ listLabels statements ↔
      (∃ node ∈ listNodes statements, node.label? = some name) ∨
        ∃ target ∈ listTargets statements, target.name = name := by
  simp only [listLabels, listTargets, List.mem_flatMap, List.mem_append, Option.mem_toList,
    List.mem_map, and_or_left, exists_or]
  refine or_congr Iff.rfl ⟨?_, ?_⟩
  · rintro ⟨node, hnode, target, htarget, rfl⟩
    exact ⟨target, ⟨node, hnode, htarget⟩, rfl⟩
  · rintro ⟨target, ⟨node, hnode, htarget⟩, rfl⟩
    exact ⟨node, hnode, target, htarget, rfl⟩

/-- The C label of a statement is that of its name. -/
theorem exists_label?_of_cLabel? {statement : Statement} {label : String}
    (h : statement.cLabel? = some label) :
    ∃ name, statement.label? = some name ∧ CText.label name = label := by
  cases statement with
  | lineNumber name data loc =>
    cases data with
    | none =>
      cases h
      exact ⟨name, rfl, rfl⟩
    | some data => cases h
  | label name loc =>
    cases h
    exact ⟨name, rfl, rfl⟩
  | _ => cases h

end Statement

/-- A number that a line can have is a number within a line as well. -/
theorem isNumeral_of_isDigits {text : String} (h : isDigits text = true) :
    isNumeral text = true := by
  have hall := List.all_eq_true.1 (Bool.and_eq_true _ _ ▸ h).2
  rw [isNumeral, List.dropWhile_eq_nil_iff.2 hall, Bool.and_true]
  cases hchars : text.toList with
  | nil => simp [isDigits, hchars] at h
  | cons c chars => exact hall c (by simp [hchars])

/-- What lines, labels and jumps are named is a number or a name. -/
theorem isNumeral_or_isName_of_mem_listLabels {bytes : List UInt8} {name : String}
    (h : name ∈ Statement.listLabels (parse bytes).program) :
    isNumeral name = true ∨ isName name = true := by
  rcases Statement.mem_listLabels.1 h with ⟨node, hnode, hlabel⟩ | ⟨target, htarget, rfl⟩
  · have hnamed := isNamed_of_mem_program hnode
    cases node with
    | lineNumber other data loc =>
      cases hlabel
      exact .inl (isNumeral_of_isDigits ((Bool.and_eq_true _ _).mp hnamed).1)
    | label other loc =>
      cases hlabel
      exact .inr hnamed
    | _ => cases hlabel
  · have hspellable := isSpellable_of_mem_listTargets htarget
    rwa [JumpTarget.isSpellable, Bool.or_eq_true] at hspellable

namespace CText

/-- A number gets an underscore in front, since no C label starts with a digit. -/
theorem label_of_isNumeral {name : String} (h : isNumeral name = true) :
    label name = "_" ++ name := by
  rw [isNumeral, Bool.and_eq_true] at h
  unfold label
  split
  next c rest hchars =>
    rw [hchars] at h
    exact if_pos h.1
  next hnil =>
    rw [hnil] at h
    cases h.1

/-- A name is its own label. -/
theorem label_of_isName {name : String} (h : isName name = true) : label name = name := by
  obtain ⟨head, word, mark, hchars, hhead, -⟩ :=
    Lexeme.exists_of_isWordText ((Bool.and_eq_true _ _).mp h).1
  have hdigit : head.isDigit = false := by
    refine Bool.eq_false_iff.2 fun hdigit => ?_
    have hletter := isAlpha_bounds hhead
    have hbounds := isDigit_bounds hdigit
    omega
  unfold label
  rw [hchars]
  simp [hdigit]

/-- The C label of a number is no name. -/
theorem label_ne_of_isName {number name : String} (hnumber : isNumeral number = true)
    (hname : isName name = true) : label number ≠ name := by
  rw [label_of_isNumeral hnumber]
  rintro rfl
  -- a name has no underscore in it
  exact absurd (isAlphanum_of_mem hname (c := '_') (by simp)) (by decide)

/-- Names with the same label are the same, since no name starts with an underscore. -/
theorem label_inj {first second : String} (hfirst : isNumeral first = true ∨ isName first = true)
    (hsecond : isNumeral second = true ∨ isName second = true) :
    label first = label second ↔ first = second := by
  refine ⟨fun h => ?_, congrArg label⟩
  rcases hfirst with hfirst | hfirst
  · rcases hsecond with hsecond | hsecond
    · rw [label_of_isNumeral hfirst, label_of_isNumeral hsecond] at h
      simpa using h
    · rw [label_of_isName hsecond] at h
      exact absurd h (label_ne_of_isName hfirst hsecond)
  · rcases hsecond with hsecond | hsecond
    · rw [label_of_isName hfirst] at h
      exact absurd h.symm (label_ne_of_isName hsecond hfirst)
    · rwa [label_of_isName hfirst, label_of_isName hsecond] at h

/-- A text with an underscore in front of a letter is the C label of no number and of no name. -/
theorem label_ne_of_isAlpha {name text : String} {c : Char} {rest : List Char}
    (h : isNumeral name = true ∨ isName name = true) (htext : text.toList = '_' :: c :: rest)
    (hc : c.isDigit = false) : label name ≠ text := by
  rintro rfl
  rcases h with h | h
  · rw [label_of_isNumeral h, String.toList_append] at htext
    have hchars : name.toList = c :: rest := by simpa using htext
    simp [isNumeral, hchars, hc] at h
  · rw [label_of_isName h] at htext
    exact absurd (isAlphanum_of_mem h (c := '_') (by simp [htext])) (by decide)

end CText

/-- The C text of a jump goes to the C label of a line or a label if and only if the jump names the
line or the label. -/
theorem jump_reaches_iff {bytes : List UInt8} {target : JumpTarget} {statement : Statement}
    {label : String} (htarget : target ∈ Statement.listTargets (parse bytes).program)
    (hstatement : statement ∈ Statement.listNodes (parse bytes).program)
    (hlabel : statement.cLabel? = some label) :
    target.toC = "goto " ++ label ++ ";" ↔ statement.label? = some target.name := by
  obtain ⟨name, hname, rfl⟩ := Statement.exists_label?_of_cLabel? hlabel
  have htext : target.toC = "goto " ++ CText.label name ++ ";" ↔
      CText.label target.name = CText.label name := by
    simp [JumpTarget.toC, CText.goto]
  rw [htext, hname, Option.some.injEq, eq_comm (a := name)]
  exact CText.label_inj
    (isNumeral_or_isName_of_mem_listLabels (Statement.mem_listLabels.2 (.inr ⟨_, htarget, rfl⟩)))
    (isNumeral_or_isName_of_mem_listLabels
      (Statement.mem_listLabels.2 (.inl ⟨_, hstatement, hname⟩)))

/-- Among what the lines, labels and jumps of a listing are named, different names have different
C labels, and no C label is a name that the stack of return addresses takes. -/
theorem cLabel_eq_iff {bytes : List UInt8} {first second : String}
    (hfirst : first ∈ Statement.listLabels (parse bytes).program)
    (hsecond : second ∈ Statement.listLabels (parse bytes).program) :
    (CText.label first = CText.label second ↔ first = second) ∧
      CText.label first ∉ ["_ret_stack", "_ret_sp"] := by
  have hname := isNumeral_or_isName_of_mem_listLabels hfirst
  refine ⟨CText.label_inj hname (isNumeral_or_isName_of_mem_listLabels hsecond), ?_⟩
  have hstack : CText.label first ≠ "_ret_stack" :=
    CText.label_ne_of_isAlpha hname rfl (by decide)
  have hpointer : CText.label first ≠ "_ret_sp" :=
    CText.label_ne_of_isAlpha hname rfl (by decide)
  simp [hstack, hpointer]

/-- The theorem at a line and at a label that has the same digits in its name. -/
theorem cLabel_eq_iff_arm :
    let bytes := Utf8.encode "10 IF A THEN 20 ELSE GOSUB *R10\n20 *R10: RETURN"
    "10" ∈ Statement.listLabels (parse bytes).program ∧
      "R10" ∈ Statement.listLabels (parse bytes).program ∧
      (CText.label "10" = CText.label "R10" ↔ "10" = "R10") ∧
      CText.label "10" ∉ ["_ret_stack", "_ret_sp"] := by
  intro bytes
  have hline : "10" ∈ Statement.listLabels (parse bytes).program := by decide +kernel
  have hlabel : "R10" ∈ Statement.listLabels (parse bytes).program := by decide +kernel
  exact ⟨hline, hlabel, cLabel_eq_iff hline hlabel⟩

end LineBasic
