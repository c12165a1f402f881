import LineBasic.Lowering.Expression
import LineBasic.Proofs.Lowering.Places
import LineBasic.Proofs.Spelling.Lexical
import LineBasic.Proofs.Spelling.Parse

/-!
# Reading C text back

The C text of an expression can be read back: `CText.read` gives the expression again, up to the
places of its parts (`CText.readable_of_isLexical`). So no two expressions of programs have the same
C text unless they are equal up to places (`toC_eq_iff`).

The first character of a text tells what it is the text of, since names and numbers are those of
tokens, and a name before a parenthesis that is a reserved word is an operator. A reader has to know
where a name or a number ends: behind an expression stands a space, a closing parenthesis or
bracket, a comma, or nothing (`CText.Ends`).
-/

namespace LineBasic

attribute [local simp] Expr.toC Expr.listToC

namespace CText

/-! ## The reader -/

/-- Reads a C operator with a space on either side. -/
def readOperator : List Char → Option (BinaryOp × List Char)
  | ' ' :: '+' :: ' ' :: rest => some (.add, rest)
  | ' ' :: '-' :: ' ' :: rest => some (.sub, rest)
  | ' ' :: '*' :: ' ' :: rest => some (.mul, rest)
  | ' ' :: '/' :: ' ' :: rest => some (.div, rest)
  | ' ' :: '=' :: '=' :: ' ' :: rest => some (.eq, rest)
  | ' ' :: '!' :: '=' :: ' ' :: rest => some (.ne, rest)
  | ' ' :: '<' :: ' ' :: rest => some (.lt, rest)
  | ' ' :: '>' :: ' ' :: rest => some (.gt, rest)
  | ' ' :: '&' :: '&' :: ' ' :: rest => some (.and, rest)
  | ' ' :: '|' :: '|' :: ' ' :: rest => some (.or, rest)
  | _ => none

/-- Reads the text of a string, from the characters behind its opening quote. -/
def readText : List Char → Option (List Char × List Char)
  | [] => none
  | '"' :: rest => some ([], rest)
  | '\\' :: c :: rest => (readText rest).map fun (text, rest) => (c :: text, rest)
  | c :: rest => (readText rest).map fun (text, rest) => (c :: text, rest)

/-- The word at the front: letters and digits, then a dollar sign if there is one. -/
def wordChars (chars : List Char) : List Char :=
  match chars.dropWhile Char.isAlphanum with
  | '$' :: _ => chars.takeWhile Char.isAlphanum ++ ['$']
  | _ => chars.takeWhile Char.isAlphanum

/-- The operator that C text writes like the call of a function. -/
def operator? (name : String) : Option UnaryOp :=
  if name = "LEN" then some .len
  else if name = "ASC" then some .asc
  else if name = "CHR$" then some .chr
  else none

section Rules

variable (inner : List Char → Option (Expr × List Char))

/-- Reads an expression and the character that closes it. -/
def readClosed (closing : Char) (chars : List Char) : Option (Expr × List Char) := do
  let (e, rest) ← inner chars
  if rest.head? = some closing then some (e, rest.tail) else none

/-- Reads an operation, from the characters behind its parenthesis. -/
def readOperation (chars : List Char) : Option (Expr × List Char) :=
  if chars.head? = some '-' then
    (readClosed inner ')' chars.tail).map fun (operand, rest) =>
      (.unary .neg operand .start, rest)
  else do
    let (left, rest) ← inner chars
    let (op, rest) ← readOperator rest
    let (right, rest) ← readClosed inner ')' rest
    some (.binary op left right .start, rest)

/-- Reads at most `limit` subscripts. -/
def readIndices : (limit : Nat) → List Char → Option (List Expr × List Char)
  | 0, chars => some ([], chars)
  | limit + 1, chars =>
    if chars.head? = some '[' then do
      let (head, rest) ← readClosed inner ']' chars.tail
      let (tail, rest) ← readIndices limit rest
      some (head :: tail, rest)
    else
      some ([], chars)

/-- Reads at most `limit` arguments behind the first one, each after a comma and a space, and the
parenthesis behind them. -/
def readMore : (limit : Nat) → List Char → Option (List Expr × List Char)
  | _, ')' :: rest => some ([], rest)
  | limit + 1, ',' :: ' ' :: rest => do
    let (head, rest) ← inner rest
    let (tail, rest) ← readMore limit rest
    some (head :: tail, rest)
  | _, _ => none

/-- Reads arguments and the parenthesis behind them. -/
def readArguments (limit : Nat) (chars : List Char) : Option (List Expr × List Char) :=
  if chars.head? = some ')' then some ([], chars.tail)
  else do
    let (head, rest) ← inner chars
    let (tail, rest) ← readMore inner limit rest
    some (head :: tail, rest)

/-- Reads what starts with a name: a call, an operator that looks like one, or a variable. -/
def readNamed (limit : Nat) (chars : List Char) : Option (Expr × List Char) :=
  let name := String.ofList (wordChars chars)
  let rest := chars.drop (wordChars chars).length
  if rest.head? = some '(' then
    match operator? name with
    | some op => (readClosed inner ')' rest.tail).map fun (operand, rest) =>
      (.unary op operand .start, rest)
    | none => (readArguments inner limit rest.tail).map fun (arguments, rest) =>
      (.call name arguments .start, rest)
  else
    (readIndices inner limit rest).map fun (indices, rest) => (.var name indices .start, rest)

end Rules

/-- Reads an expression and gives it without places, with the characters behind it. The fuel
bounds how deep expressions stand inside each other and how long their lists are. -/
def read : (fuel : Nat) → List Char → Option (Expr × List Char)
  | 0, _ => none
  | fuel + 1, chars =>
    match chars.head? with
    | none => none
    | some '"' => (readText chars.tail).map fun (text, rest) =>
      (.str (String.ofList text) .start, rest)
    | some '(' => readOperation (read fuel) chars.tail
    | some c =>
      if c.isDigit then
        let digits := chars.takeWhile Char.isDigit
        some (.int ⟨Int.ofNat (decimalValue digits), String.ofList digits, .start⟩,
          chars.dropWhile Char.isDigit)
      else
        readNamed (read fuel) fuel chars

/-! ## Words, numbers and strings -/

/-- The characters end an expression that stands before them. -/
def Ends (rest : List Char) : Prop :=
  ∀ c ∈ rest.head?, c ∈ [' ', ')', ',', ']']

theorem Ends.nil : Ends [] := by
  intro c hc
  cases hc

theorem Ends.cons {c : Char} {rest : List Char} (h : c ∈ [' ', ')', ',', ']']) :
    Ends (c :: rest) := by
  intro first hfirst
  cases hfirst
  exact h

/-- A test that fails on all characters that may follow fails on the one that follows. -/
theorem Ends.head {rest : List Char} (h : Ends rest) {p : Char → Bool}
    (hp : [' ', ')', ',', ']'].all (fun c => !p c) = true) : ∀ c ∈ rest.head?, p c = false := by
  intro c hc
  simpa using List.all_eq_true.1 hp c (h c hc)

/-- The text of an operator is read back with the blanks around it. -/
theorem readOperator_toC (op : BinaryOp) (rest : List Char) :
    readOperator (' ' :: op.toC.toList ++ ' ' :: rest) = some (op, rest) := by
  cases op <;> rfl

/-- Escaped text is read back up to the quote that ends it. -/
theorem readText_escape (text rest : List Char) :
    readText (text.flatMap escapeChar ++ '"' :: rest) = some (text, rest) := by
  induction text with
  | nil => rfl
  | cons c text ih =>
    rw [List.flatMap_cons, List.append_assoc]
    -- a backslash and a quote have a backslash before them, all others stand for themselves
    by_cases hslash : c = '\\'
    · subst hslash
      change readText ('\\' :: '\\' :: (text.flatMap escapeChar ++ '"' :: rest)) = _
      rw [readText, ih]
      rfl
    · by_cases hquote : c = '"'
      · subst hquote
        change readText ('\\' :: '"' :: (text.flatMap escapeChar ++ '"' :: rest)) = _
        rw [readText, ih]
        rfl
      · rw [escapeChar, if_neg hslash, if_neg hquote, List.singleton_append]
        rw [readText, ih]
        · rfl
        · exact hquote
        · intro _ _ hc
          exact absurd hc hslash

/-- A word is read as a whole before characters that do not go on with it. -/
theorem wordChars_append {word rest : List Char} (h : isWordText word = true)
    (hrest : ∀ c ∈ rest.head?, c.isAlphanum = false ∧ c ≠ '$') :
    wordChars (word ++ rest) = word := by
  obtain ⟨head, tail, mark, rfl, hhead, htail, hmark⟩ := Lexeme.exists_of_isWordText h
  have hall : ∀ c ∈ head :: tail, c.isAlphanum = true := by
    rw [List.forall_mem_cons, Char.isAlphanum, hhead]
    exact ⟨rfl, htail⟩
  rw [← List.cons_append, List.append_assoc, wordChars]
  -- the word ends at the rest, or behind a dollar sign
  rcases hmark with rfl | rfl
  · have hend : ∀ c ∈ rest.head?, c.isAlphanum = false := fun c hc => (hrest c hc).1
    rw [List.nil_append, takeWhile_append_exact hall hend, dropWhile_append_exact hall hend,
      List.append_nil]
    cases rest with
    | nil => rfl
    | cons c rest =>
      have hdollar : c ≠ '$' := (hrest c rfl).2
      simp [hdollar]
  · have hend : ∀ c ∈ ('$' :: rest).head?, c.isAlphanum = false := by
      intro c hc
      cases hc
      decide
    rw [List.singleton_append, takeWhile_append_exact hall hend, dropWhile_append_exact hall hend]
    rfl

/-- No name is that of an operator. -/
theorem operator?_of_isName {name : String} (h : isName name = true) : operator? name = none := by
  rw [isName, Bool.and_eq_true, Option.isNone_iff_eq_none] at h
  have hne {word : String} (hword : Keyword.ofSpelling? word ≠ none) : name ≠ word := by
    rintro rfl
    exact hword h.2
  rw [operator?, if_neg (hne (by decide)), if_neg (hne (by decide)), if_neg (hne (by decide))]

/-! ## Reading expressions -/

/-- The text of the expression is read back with this much fuel or more. -/
def ReadFrom (least : Nat) (e : Expr) : Prop :=
  ∀ fuel, least ≤ fuel → ∀ rest, Ends rest →
    read fuel (e.toC.toList ++ rest) = some (e.unplaced, rest)

/-- The text of the expression is read back. -/
def Readable (e : Expr) : Prop := ∃ least, ReadFrom least e

theorem ReadFrom.mono {least more : Nat} {e : Expr} (h : ReadFrom least e) (hle : least ≤ more) :
    ReadFrom more e :=
  fun fuel hfuel => h fuel (Nat.le_trans hle hfuel)

/-- Enough fuel for one of some expressions is enough for all of them. -/
theorem exists_readFrom {expressions : List Expr} (h : ∀ e ∈ expressions, Readable e) :
    ∃ least, ∀ e ∈ expressions, ReadFrom least e := by
  induction expressions with
  | nil => exact ⟨0, by simp⟩
  | cons head tail ih =>
    rw [List.forall_mem_cons] at h
    obtain ⟨first, hfirst⟩ := h.1
    obtain ⟨others, hothers⟩ := ih h.2
    refine ⟨max first others, List.forall_mem_cons.2 ⟨hfirst.mono (Nat.le_max_left _ _), ?_⟩⟩
    exact fun e he => (hothers e he).mono (Nat.le_max_right _ _)

/-- The text of subscripts, with what stands behind them. -/
def indicesText (rest : List Char) : List Expr → List Char
  | [] => rest
  | head :: tail => '[' :: (head.toC.toList ++ ']' :: indicesText rest tail)

/-- The text of arguments behind another one, with the parenthesis and what stands behind it. -/
def moreText (rest : List Char) : List Expr → List Char
  | [] => ')' :: rest
  | head :: tail => ',' :: ' ' :: (head.toC.toList ++ moreText rest tail)

/-- An element is its name with each subscript in brackets. -/
theorem toList_element (name : String) (indices : List Expr) (rest : List Char) :
    (element name (Expr.listToC indices)).toList ++ rest =
      name.toList ++ indicesText rest indices := by
  rw [element, String.toList_append, String.toList_join, List.append_assoc]
  congr 1
  induction indices with
  | nil => rfl
  | cons head tail ih =>
    rw [Expr.listToC, List.map_cons, List.flatMap_cons, List.append_assoc, ih, indicesText]
    simp [String.toList_append]

/-- Arguments are the first one and the rest, each behind a comma. -/
theorem toList_arguments (head : Expr) (tail : List Expr) (rest : List Char) :
    (String.intercalate ", " (Expr.listToC (head :: tail))).toList ++ ')' :: rest =
      head.toC.toList ++ moreText rest tail := by
  induction tail generalizing head with
  | nil => rfl
  | cons next tail ih =>
    rw [Expr.listToC, Expr.listToC, String.intercalate_cons_cons, ← Expr.listToC,
      String.toList_append, String.toList_append, List.append_assoc, List.append_assoc, ih,
      moreText]
    rfl

section Parts

variable {fuel limit : Nat} {e : Expr} {expressions : List Expr} {rest : List Char}

/-- An expression is read back with the bracket that closes it. -/
theorem readClosed_toC (h : ReadFrom fuel e) {closing : Char} (hclosing : Ends [closing])
    (rest : List Char) :
    readClosed (read fuel) closing (e.toC.toList ++ closing :: rest) = some (e.unplaced, rest) := by
  rw [readClosed, h fuel (Nat.le_refl _) _ (.cons (hclosing closing rfl))]
  simp

/-- By induction on the subscripts: each is read back with its brackets. -/
theorem readIndices_toC (h : ∀ e ∈ expressions, ReadFrom fuel e)
    (hlimit : expressions.length ≤ limit) (hrest : Ends rest) :
    readIndices (read fuel) limit (indicesText rest expressions) =
      some (expressions.map Expr.unplaced, rest) := by
  induction expressions generalizing limit with
  | nil =>
    cases limit with
    | zero => rfl
    | succ limit =>
      -- no bracket stands behind the last subscript
      have hopen : rest.head? ≠ some '[' := by
        intro hhead
        exact absurd (hrest '[' hhead) (by decide)
      rw [indicesText, readIndices, if_neg hopen]
      rfl
  | cons head tail ih =>
    rw [List.forall_mem_cons] at h
    cases limit with
    | zero => cases hlimit
    | succ limit =>
      have hhead := readClosed_toC h.1 (Ends.cons (show ']' ∈ _ by decide)) (indicesText rest tail)
      have htail := ih h.2 (Nat.le_of_succ_le_succ hlimit)
      rw [indicesText, readIndices, List.head?_cons, if_pos rfl, List.tail_cons, hhead]
      simp only [Option.bind_eq_bind, Option.bind_some, htail]
      rfl

/-- Behind an argument, a comma or the closing parenthesis ends it. -/
theorem ends_moreText (rest : List Char) (expressions : List Expr) :
    Ends (moreText rest expressions) := by
  cases expressions with
  | nil | cons head tail => exact .cons (by decide)

/-- By induction on the arguments: each is read back with the comma in front of it. -/
theorem readMore_toC (h : ∀ e ∈ expressions, ReadFrom fuel e)
    (hlimit : expressions.length ≤ limit) :
    readMore (read fuel) limit (moreText rest expressions) =
      some (expressions.map Expr.unplaced, rest) := by
  induction expressions generalizing limit with
  | nil =>
    rw [moreText, readMore]
    rfl
  | cons head tail ih =>
    rw [List.forall_mem_cons] at h
    cases limit with
    | zero => cases hlimit
    | succ limit =>
      -- the first argument ends at a comma or at the closing parenthesis
      have hhead := h.1 fuel (Nat.le_refl _) _ (ends_moreText rest tail)
      have htail := ih h.2 (Nat.le_of_succ_le_succ hlimit)
      rw [moreText, readMore, hhead]
      simp only [Option.bind_eq_bind, Option.bind_some, htail]
      rfl

end Parts

section Names

variable {fuel : Nat} {inner : List Char → Option (Expr × List Char)} {limit : Nat}

/-- What starts with a letter is read as what starts with a name. -/
theorem read_of_isAlpha {c : Char} {rest : List Char} (h : c.isAlpha = true) :
    read (fuel + 1) (c :: rest) = readNamed (read fuel) fuel (c :: rest) := by
  have hne {other : Char} (hother : other.isAlpha = false) : c ≠ other := by
    rintro rfl
    rw [h] at hother
    cases hother
  -- the classes of letters and of digits have no character in common
  have hdigit : ¬c.isDigit = true := by
    intro hdigit
    have halpha := isAlpha_bounds h
    have hbounds := isDigit_bounds hdigit
    omega
  rw [read, List.head?_cons]
  split
  next heq => cases heq
  next heq => exact absurd (Option.some.inj heq) (hne (by decide))
  next heq => exact absurd (Option.some.inj heq) (hne (by decide))
  next heq =>
    cases heq
    rw [if_neg hdigit]

/-- What starts with a word is read as what the word stands for. -/
theorem readNamed_append {word : String} {after : List Char} (h : isWordText word.toList = true)
    (hafter : ∀ c ∈ after.head?, c.isAlphanum = false ∧ c ≠ '$') :
    readNamed inner limit (word.toList ++ after) =
      if after.head? = some '(' then
        match operator? word with
        | some op => (readClosed inner ')' after.tail).map fun (operand, rest) =>
          (.unary op operand .start, rest)
        | none => (readArguments inner limit after.tail).map fun (arguments, rest) =>
          (.call word arguments .start, rest)
      else
        (readIndices inner limit after).map fun (indices, rest) =>
          (.var word indices .start, rest) := by
  rw [readNamed, wordChars_append h hafter, String.ofList_toList, List.drop_left]

/-- Text that starts a word is read as a name or a number. -/
theorem read_word {word : String} {after : List Char} (h : isWordText word.toList = true) :
    read (fuel + 1) (word.toList ++ after) = readNamed (read fuel) fuel (word.toList ++ after) := by
  obtain ⟨head, tail, mark, hchars, hhead, -, -⟩ := Lexeme.exists_of_isWordText h
  rw [hchars]
  exact read_of_isAlpha hhead

/-- A name is the text of a word. -/
theorem isWordText_of_isName {name : String} (h : isName name = true) :
    isWordText name.toList = true := by
  rw [isName, Bool.and_eq_true] at h
  exact h.1

end Names

/-! ### Texts by their characters -/

section Texts

variable (rest : List Char)

/-- A string is its escaped text between quotes. -/
theorem toList_str (text : String) (loc : Location) :
    (Expr.str text loc).toC.toList ++ rest =
      '"' :: (text.toList.flatMap escapeChar ++ '"' :: rest) := by
  simp [Expr.toC, quote, String.toList_append]

/-- A negation stands in parentheses of its own. -/
theorem toList_neg (operand : Expr) (loc : Location) :
    (Expr.unary .neg operand loc).toC.toList ++ rest =
      '(' :: '-' :: (operand.toC.toList ++ ')' :: rest) := by
  simp [Expr.toC, UnaryOp.toC, String.toList_append]

/-- The other operators before an operand are written like calls. -/
theorem exists_toList_unary {op : UnaryOp} (hop : op ≠ .neg) (operand : Expr) (loc : Location) :
    ∃ word : String, isWordText word.toList = true ∧ operator? word = some op ∧
      (Expr.unary op operand loc).toC.toList ++ rest =
        word.toList ++ '(' :: (operand.toC.toList ++ ')' :: rest) := by
  cases op with
  | neg => exact absurd rfl hop
  | len => exact ⟨"LEN", by decide, rfl, by simp [Expr.toC, UnaryOp.toC, String.toList_append]⟩
  | asc => exact ⟨"ASC", by decide, rfl, by simp [Expr.toC, UnaryOp.toC, String.toList_append]⟩
  | chr => exact ⟨"CHR$", by decide, rfl, by simp [Expr.toC, UnaryOp.toC, String.toList_append]⟩

/-- An operation stands in parentheses of its own, with blanks around the operator. -/
theorem toList_binary (op : BinaryOp) (left right : Expr) (loc : Location) :
    (Expr.binary op left right loc).toC.toList ++ rest =
      '(' :: (left.toC.toList ++
        (' ' :: op.toC.toList ++ ' ' :: (right.toC.toList ++ ')' :: rest))) := by
  simp [Expr.toC, String.toList_append]

/-- A call is its name and the arguments in parentheses. -/
theorem toList_call (function : String) (arguments : List Expr) (loc : Location) :
    (Expr.call function arguments loc).toC.toList ++ rest =
      function.toList ++
        '(' :: ((String.intercalate ", " (Expr.listToC arguments)).toList ++ ')' :: rest) := by
  simp [Expr.toC, call, String.toList_append]

end Texts

/-- No expression starts with a minus sign or with a closing parenthesis. -/
theorem head?_toC {e : Expr} (h : e.isLexical = true) (rest : List Char) :
    (e.toC.toList ++ rest).head? ≠ some '-' ∧ (e.toC.toList ++ rest).head? ≠ some ')' := by
  -- it starts with a letter, a digit, a quote or an opening parenthesis: a minus of its own stands
  -- inside one
  have hword {word : String} (h : isWordText word.toList = true) (rest : List Char) :
      (word.toList ++ rest).head? ≠ some '-' ∧ (word.toList ++ rest).head? ≠ some ')' := by
    obtain ⟨head, tail, mark, hchars, hhead, -, -⟩ := Lexeme.exists_of_isWordText h
    rw [hchars]
    constructor <;> rintro ⟨⟩ <;> cases hhead
  cases e with
  | var name indices loc =>
    rw [Expr.isLexical, Bool.and_eq_true] at h
    rw [Expr.toC, toList_element]
    exact hword (isWordText_of_isName h.1) _
  | int literal =>
    simp only [Expr.isLexical, IntLit.isSpellable, isDigits, Bool.and_eq_true,
      Bool.not_eq_true', List.isEmpty_eq_false_iff, List.all_eq_true] at h
    obtain ⟨⟨⟨hne, hall⟩, -⟩, -⟩ := h
    obtain ⟨head, tail, hchars⟩ := List.exists_cons_of_ne_nil hne
    have hhead := hall head (by rw [hchars]; exact List.mem_cons_self)
    rw [Expr.toC, hchars]
    constructor <;> rintro ⟨⟩ <;> cases hhead
  | str text loc =>
    rw [toList_str]
    exact ⟨by rintro ⟨⟩, by rintro ⟨⟩⟩
  | unary op operand loc =>
    by_cases hop : op = .neg
    · subst hop
      rw [toList_neg]
      exact ⟨by rintro ⟨⟩, by rintro ⟨⟩⟩
    · obtain ⟨word, hchars, -, htext⟩ := exists_toList_unary rest hop operand loc
      rw [htext]
      exact hword hchars _
  | binary op left right loc =>
    rw [toList_binary]
    exact ⟨by rintro ⟨⟩, by rintro ⟨⟩⟩
  | call function arguments loc =>
    rw [Expr.isLexical, Bool.and_eq_true] at h
    rw [toList_call]
    exact hword (isWordText_of_isName h.1) _

/-! ### One case for each kind of expression -/

namespace Readable

/-- A name can be read back with its subscripts. -/
theorem var {name : String} {indices : List Expr} {loc : Location} (hname : isName name = true)
    (h : ∀ e ∈ indices, Readable e) : Readable (.var name indices loc) := by
  obtain ⟨least, hleast⟩ := exists_readFrom h
  refine ⟨max least indices.length + 1, fun fuel hfuel rest hrest => ?_⟩
  obtain ⟨fuel, rfl⟩ : ∃ fewer, fuel = fewer + 1 := ⟨fuel - 1, by omega⟩
  -- behind the name stands a bracket or the rest
  have hafter : ∀ c ∈ (indicesText rest indices).head?,
      (c.isAlphanum || c == '$' || c == '(') = false := by
    cases indices with
    | nil => exact hrest.head (p := fun c => c.isAlphanum || c == '$' || c == '(') (by decide)
    | cons head tail =>
      intro c hc
      cases hc
      decide
  simp only [Bool.or_eq_false_iff, beq_eq_false_iff_ne] at hafter
  have hparen : (indicesText rest indices).head? ≠ some '(' := fun hhead => (hafter _ hhead).2 rfl
  have hindices := readIndices_toC (fun e he => (hleast e he).mono (show least ≤ fuel by omega))
    (show indices.length ≤ fuel by omega) hrest
  have hword := isWordText_of_isName hname
  rw [Expr.toC, toList_element, read_word hword, readNamed_append hword fun c hc => (hafter c hc).1,
    if_neg hparen, hindices, Expr.unplaced_var]
  rfl

/-- A number can be read back, since its spelling is its literal. -/
theorem int {literal : IntLit} (h : literal.isSpellable = true) : Readable (.int literal) := by
  obtain ⟨value, digits, loc⟩ := literal
  simp only [IntLit.isSpellable, isDigits, Bool.and_eq_true, Bool.not_eq_true',
    List.isEmpty_eq_false_iff, List.all_eq_true, beq_iff_eq] at h
  obtain ⟨⟨⟨hne, hall⟩, -⟩, rfl⟩ := h
  refine ⟨1, fun fuel hfuel rest hrest => ?_⟩
  obtain ⟨fuel, rfl⟩ : ∃ fewer, fuel = fewer + 1 := ⟨fuel - 1, by omega⟩
  have hend := hrest.head (p := Char.isDigit) (by decide)
  -- the first character can only be a digit, which leaves one branch of the reader
  have hread : ∀ c, (digits.toList ++ rest).head? = some c → c.isDigit = true := by
    obtain ⟨head, tail, hchars⟩ := List.exists_cons_of_ne_nil hne
    rw [hchars] at hall ⊢
    rintro c ⟨⟩
    exact hall head List.mem_cons_self
  rw [Expr.toC, read, takeWhile_append_exact hall hend, dropWhile_append_exact hall hend]
  split
  next hnone => exact absurd (List.head?_eq_none_iff.1 hnone) (by simp [hne])
  next hquote => cases hread _ hquote
  next hparen => cases hread _ hparen
  next hc =>
    rw [if_pos (hread _ hc)]
    dsimp only
    rw [String.ofList_toList]
    rfl

/-- A string can be read back, whatever characters are in it. -/
theorem str {text : String} {loc : Location} : Readable (.str text loc) := by
  refine ⟨1, fun fuel hfuel rest _ => ?_⟩
  obtain ⟨fuel, rfl⟩ : ∃ fewer, fuel = fewer + 1 := ⟨fuel - 1, by omega⟩
  rw [toList_str, read]
  dsimp only [List.head?_cons, List.tail_cons]
  rw [readText_escape, Option.map_some, String.ofList_toList]
  rfl

/-- A unary operation can be read back if its operand can. -/
theorem unary {op : UnaryOp} {operand : Expr} {loc : Location} (h : Readable operand) :
    Readable (.unary op operand loc) := by
  obtain ⟨least, hleast⟩ := h
  refine ⟨least + 1, fun fuel hfuel rest _ => ?_⟩
  obtain ⟨fuel, rfl⟩ : ∃ fewer, fuel = fewer + 1 := ⟨fuel - 1, by omega⟩
  have hclosed := readClosed_toC (hleast.mono (Nat.le_of_succ_le_succ hfuel))
    (Ends.cons (show ')' ∈ _ by decide)) rest
  -- a minus sign is in parentheses with its operand, other operators are written like calls
  by_cases hop : op = .neg
  · subst hop
    rw [toList_neg, read]
    dsimp only [List.head?_cons, List.tail_cons]
    rw [readOperation, List.head?_cons, if_pos rfl, List.tail_cons, hclosed]
    rfl
  · obtain ⟨word, hword, hname, htext⟩ := exists_toList_unary rest hop operand loc
    have hafter : ∀ c ∈ ('(' :: (operand.toC.toList ++ ')' :: rest)).head?,
        c.isAlphanum = false ∧ c ≠ '$' := by
      intro c hc
      cases hc
      decide
    rw [htext, read_word hword, readNamed_append hword hafter, List.head?_cons, if_pos rfl, hname,
      List.tail_cons]
    dsimp only
    rw [hclosed]
    rfl

/-- An operation can be read back if both sides can. -/
theorem binary {op : BinaryOp} {left right : Expr} {loc : Location}
    (hlexical : left.isLexical = true) (h : Readable left) (h' : Readable right) :
    Readable (.binary op left right loc) := by
  obtain ⟨least, hleast⟩ := h
  obtain ⟨least', hleast'⟩ := h'
  refine ⟨max least least' + 1, fun fuel hfuel rest _ => ?_⟩
  obtain ⟨fuel, rfl⟩ : ∃ fewer, fuel = fewer + 1 := ⟨fuel - 1, by omega⟩
  have hleft := hleast fuel (by omega)
    (' ' :: op.toC.toList ++ ' ' :: (right.toC.toList ++ ')' :: rest)) (.cons (by decide))
  have hright := readClosed_toC (hleast'.mono (show least' ≤ fuel by omega))
    (Ends.cons (show ')' ∈ _ by decide)) rest
  rw [toList_binary, read]
  dsimp only [List.head?_cons, List.tail_cons]
  -- no operand starts with a minus sign, so this is not taken for a negation
  rw [readOperation, if_neg (head?_toC hlexical _).1, hleft]
  simp only [Option.bind_eq_bind, Option.bind_some, readOperator_toC, hright]
  rfl

/-- A call can be read back if its arguments can. -/
theorem call {function : String} {arguments : List Expr} {loc : Location}
    (hname : isName function = true) (hlexical : ∀ e ∈ arguments, e.isLexical = true)
    (h : ∀ e ∈ arguments, Readable e) : Readable (.call function arguments loc) := by
  obtain ⟨least, hleast⟩ := exists_readFrom h
  refine ⟨max least arguments.length + 1, fun fuel hfuel rest _ => ?_⟩
  obtain ⟨fuel, rfl⟩ : ∃ fewer, fuel = fewer + 1 := ⟨fuel - 1, by omega⟩
  have hword := isWordText_of_isName hname
  have hafter (chars : List Char) : ∀ c ∈ ('(' :: chars).head?, c.isAlphanum = false ∧ c ≠ '$' := by
    intro c hc
    cases hc
    decide
  rw [toList_call, read_word hword, readNamed_append hword (hafter _), List.head?_cons, if_pos rfl,
    operator?_of_isName hname, List.tail_cons]
  dsimp only
  -- no arguments, or a first one and those behind it
  cases arguments with
  | nil => rfl
  | cons head tail =>
    rw [List.forall_mem_cons] at hlexical hleast
    have hhead := hleast.1 fuel (by omega) _ (ends_moreText rest tail)
    have htail : readMore (read fuel) fuel (moreText rest tail) =
        some (tail.map Expr.unplaced, rest) := by
      rw [List.length_cons] at hfuel
      exact readMore_toC (fun e he => (hleast.2 e he).mono (by omega)) (by omega)
    rw [toList_arguments, readArguments, if_neg (head?_toC hlexical.1 _).2, hhead]
    simp only [Option.bind_eq_bind, Option.bind_some, htail, Expr.unplaced_call]
    rfl

end Readable

/-- The C text of an expression can be read back, if its names and literals are those of
tokens. -/
theorem readable_of_isLexical (e : Expr) (h : e.isLexical = true) : Readable e := by
  induction e using Expr.induction with
  | var name indices loc ih =>
    rw [Expr.isLexical, Bool.and_eq_true, Expr.listIsLexical_iff] at h
    exact .var h.1 fun e he => ih e he (h.2 e he)
  | int literal => exact .int h
  | str text loc => exact .str
  | unary op operand loc ih => exact .unary (ih h)
  | binary op left right loc ih ih' =>
    rw [Expr.isLexical, Bool.and_eq_true] at h
    exact .binary h.1 (ih h.1) (ih' h.2)
  | call function arguments loc ih =>
    rw [Expr.isLexical, Bool.and_eq_true, Expr.listIsLexical_iff] at h
    exact .call h.1 h.2 fun e he => ih e he (h.2 e he)

/-- Expressions with the same C text are equal up to places. -/
theorem unplaced_eq_of_toC_eq {e e' : Expr} (h : e.isLexical = true) (h' : e'.isLexical = true)
    (htext : e.toC = e'.toC) : e.unplaced = e'.unplaced := by
  obtain ⟨least, hleast⟩ := readable_of_isLexical e h
  obtain ⟨least', hleast'⟩ := readable_of_isLexical e' h'
  -- with fuel enough for both, the one text is read as the one and as the other
  have hread := hleast (max least least') (Nat.le_max_left _ _) [] .nil
  have hread' := hleast' (max least least') (Nat.le_max_right _ _) [] .nil
  rw [htext, hread'] at hread
  exact (congrArg Prod.fst (Option.some.inj hread)).symm

end CText

/-! ## Expressions of programs -/

/-- The places of an expression are not in its C text. -/
theorem Expr.toC_unplaced (e : Expr) : e.unplaced.toC = e.toC := e.toC_relocate _

mutual

/-- An expression and all expressions in it. -/
def Expr.subexpressions : Expr → List Expr
  | .var name indices loc => .var name indices loc :: Expr.listSubexpressions indices
  | .int literal => [.int literal]
  | .str text loc => [.str text loc]
  | .unary op operand loc => .unary op operand loc :: operand.subexpressions
  | .binary op left right loc =>
    .binary op left right loc :: (left.subexpressions ++ right.subexpressions)
  | .call function arguments loc =>
    .call function arguments loc :: Expr.listSubexpressions arguments

/-- Some expressions and all expressions in them. -/
def Expr.listSubexpressions : List Expr → List Expr
  | [] => []
  | head :: tail => head.subexpressions ++ Expr.listSubexpressions tail

end

mutual

/-- The expressions in an arm. -/
def Branch.expressions : Branch → List Expr
  | .goto _ => []
  | .block statements => Statement.listExpressions statements

/-- The expressions in an arm that may be missing. -/
def Branch.elseExpressions : Option Branch → List Expr
  | none => []
  | some branch => branch.expressions

/-- The expressions in a statement, at any depth. The variable that is assigned to and a call that
is a statement are among them. -/
def Statement.expressions : Statement → List Expr
  | .lineNumber _ _ _ => []
  | .label _ _ => []
  | .dim _ _ => []
  | .cond condition consequence alternative _ =>
    condition.subexpressions ++ consequence.expressions ++ Branch.elseExpressions alternative
  | .on value _ _ _ => value.subexpressions
  | .goto _ _ => []
  | .gosub _ _ => []
  | .ret _ => []
  | .loop _ first last step body _ =>
    Expr.listSubexpressions [first, last, step] ++ Statement.listExpressions body
  | .assign name indices value loc =>
    (Expr.var name indices loc).subexpressions ++ value.subexpressions
  | .call function arguments loc => (Expr.call function arguments loc).subexpressions

/-- The expressions in some statements, at any depth. -/
def Statement.listExpressions : List Statement → List Expr
  | [] => []
  | head :: tail => head.expressions ++ Statement.listExpressions tail

end

section Parts

/-- A subexpression of a list is one of an expression in it. -/
theorem Expr.mem_listSubexpressions {expressions : List Expr} {e : Expr} :
    e ∈ Expr.listSubexpressions expressions ↔ ∃ whole ∈ expressions, e ∈ whole.subexpressions := by
  induction expressions with
  | nil => simp [listSubexpressions]
  | cons head tail ih => simp [listSubexpressions, ih]

/-- An expression of a list of statements is one of a statement in it. -/
theorem Statement.mem_listExpressions {statements : List Statement} {e : Expr} :
    e ∈ Statement.listExpressions statements ↔ ∃ s ∈ statements, e ∈ s.expressions := by
  induction statements with
  | nil => simp [listExpressions]
  | cons head tail ih => simp [listExpressions, ih]

/-- An expression of an arm is one of a statement in it. -/
theorem Branch.mem_expressions {branch : Branch} {e : Expr} :
    e ∈ branch.expressions ↔ ∃ s ∈ branch.statements, e ∈ s.expressions := by
  cases branch with
  | goto target => simp [expressions, statements]
  | block statements => exact Statement.mem_listExpressions

/-- The parts of an expression have its names and literals. -/
theorem Expr.isLexical_of_mem (whole : Expr) (h : whole.isLexical = true) :
    ∀ e ∈ whole.subexpressions, e.isLexical = true := by
  have hlist {expressions : List Expr} (h : Expr.listIsLexical expressions = true)
      (ih : ∀ whole ∈ expressions, whole.isLexical = true →
        ∀ e ∈ whole.subexpressions, e.isLexical = true) :
      ∀ e ∈ Expr.listSubexpressions expressions, e.isLexical = true := by
    intro e he
    obtain ⟨whole, hwhole, he⟩ := Expr.mem_listSubexpressions.1 he
    exact ih whole hwhole (Expr.listIsLexical_iff.1 h whole hwhole) e he
  induction whole using Expr.induction with
  | var name indices loc ih =>
    have hparts := h
    rw [isLexical, Bool.and_eq_true] at hparts
    exact List.forall_mem_cons.2 ⟨h, hlist hparts.2 ih⟩
  | int literal | str text loc => exact List.forall_mem_singleton.2 h
  | unary op operand loc ih => exact List.forall_mem_cons.2 ⟨h, ih h⟩
  | binary op left right loc ih ih' =>
    have hparts := h
    rw [isLexical, Bool.and_eq_true] at hparts
    exact List.forall_mem_cons.2 ⟨h, List.forall_mem_append.2 ⟨ih hparts.1, ih' hparts.2⟩⟩
  | call function arguments loc ih =>
    have hparts := h
    rw [isLexical, Bool.and_eq_true] at hparts
    exact List.forall_mem_cons.2 ⟨h, hlist hparts.2 ih⟩

/-- The expressions of a statement are lexical if those on its levels are. -/
theorem Statement.Within.isLexical_of_mem {levels : Nat} {statement : Statement}
    (h : statement.Within (fun _ e => e.isLexical = true) levels) :
    ∀ e ∈ statement.expressions, e.isLexical = true := by
  -- inner statements are a level further in, so the induction hypothesis holds of them
  induction h with
  | @intro levels statement hheads hoperands _ ih =>
    intro e he
    cases statement with
    | cond condition consequence alternative loc =>
      rw [expressions, List.mem_append, List.mem_append] at he
      rcases he with (he | he) | he
      · exact condition.isLexical_of_mem (hoperands _ List.mem_cons_self) e he
      · obtain ⟨s, hs, he⟩ := Branch.mem_expressions.1 he
        exact ih s (List.mem_append_left _ hs) e he
      · cases alternative with
        | none => cases he
        | some arm =>
          obtain ⟨s, hs, he⟩ := Branch.mem_expressions.1 he
          exact ih s (List.mem_append_right _ (by simpa using hs)) e he
    | on value kind targets loc =>
      exact value.isLexical_of_mem (hoperands _ List.mem_cons_self) e he
    | loop counter first last step body loc =>
      rw [expressions, List.mem_append] at he
      rcases he with he | he
      · obtain ⟨whole, hwhole, he⟩ := Expr.mem_listSubexpressions.1 he
        exact whole.isLexical_of_mem (hoperands whole hwhole) e he
      · obtain ⟨s, hs, he⟩ := Statement.mem_listExpressions.1 he
        exact ih s hs e he
    | assign name indices value loc =>
      rw [expressions, List.mem_append] at he
      rcases he with he | he
      · -- the target is read as an expression, and its subscripts are lexical with it
        exact (Expr.var name indices loc).isLexical_of_mem (hheads _ List.mem_cons_self) e he
      · exact value.isLexical_of_mem (hoperands _ List.mem_cons_self) e he
    | call function arguments loc =>
      exact (Expr.call function arguments loc).isLexical_of_mem (hheads _ List.mem_cons_self) e he
    | _ => cases he

end Parts

/-- The expressions of a program are lexical, since their literals come from tokens. -/
theorem isLexical_of_mem_program {bytes : List UInt8} {e : Expr}
    (h : e ∈ Statement.listExpressions (parse bytes).program) : e.isLexical = true := by
  obtain ⟨statement, hstatement, he⟩ := Statement.mem_listExpressions.1 h
  have hwithin := program_within Grammar.passes_isLexical bytes (allows_of_mem_tokenize bytes)
  exact (hwithin statement hstatement).isLexical_of_mem e he

/-- Two expressions of programs have the same C text if and only if they are equal up to places.
They may stand in two listings, in which anything may be wrong. -/
theorem toC_eq_iff (bytes bytes' : List UInt8) (e e' : Expr)
    (h : e ∈ Statement.listExpressions (parse bytes).program)
    (h' : e' ∈ Statement.listExpressions (parse bytes').program) :
    e.toC = e'.toC ↔ e.unplaced = e'.unplaced := by
  constructor
  · exact CText.unplaced_eq_of_toC_eq (isLexical_of_mem_program h) (isLexical_of_mem_program h')
  · intro hsame
    rw [← e.toC_unplaced, hsame, e'.toC_unplaced]

/-- The theorem at a sum in two listings, written in two ways. -/
theorem toC_eq_iff_sum :
    ∃ e ∈ Statement.listExpressions (parse (Utf8.encode "10 X = F(A$ + LEN B, 1)")).program,
      ∃ e' ∈ Statement.listExpressions
          (parse (Utf8.encode "20 IF ((A$)+LEN(B)) THEN 10 ELSE )")).program,
        e.toC = "(A$ + LEN(B))" ∧ e'.toC = "(A$ + LEN(B))" ∧ e.loc ≠ e'.loc ∧
          e.unplaced = e'.unplaced := by
  obtain ⟨e, he, e', he', htext, htext', hloc⟩ :
      ∃ e ∈ Statement.listExpressions (parse (Utf8.encode "10 X = F(A$ + LEN B, 1)")).program,
        ∃ e' ∈ Statement.listExpressions
            (parse (Utf8.encode "20 IF ((A$)+LEN(B)) THEN 10 ELSE )")).program,
          e.toC = "(A$ + LEN(B))" ∧ e'.toC = "(A$ + LEN(B))" ∧ e.loc ≠ e'.loc := by
    decide +kernel
  refine ⟨e, he, e', he', htext, htext', hloc, ?_⟩
  exact (toC_eq_iff _ _ e e' he he').1 (htext.trans htext'.symm)

end LineBasic
