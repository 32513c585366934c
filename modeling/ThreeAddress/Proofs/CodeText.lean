import Std.Data.String.ToInt
import ThreeAddress.Proofs.StraightLine

/-!
The text of code is unambiguous. Lines end at newlines and words of a line at
blanks, so a text gives back its lines and a line its words. The number of words
tells which instruction a line writes, and each word stands for one variable,
number, operator or label as long as variables are called by identifiers. A
keyword is an identifier like any other: its place in the line sets it apart.
-/

namespace ThreeAddress

/-- What counts as a letter and as a digit. Neither of them ends a word, and no
letter is the beginning of a number or of a temporary. -/
structure Alphabet where
  letter : Char → Bool
  digit : Char → Bool
  letter_opens : ∀ c, letter c → c.isDigit = false ∧ c ≠ '-' ∧ c ≠ '_'
  letter_inside : ∀ c, letter c → c ≠ ' ' ∧ c ≠ '\n'
  digit_inside : ∀ c, digit c → c ≠ ' ' ∧ c ≠ '\n'

/-- A text without blanks and newlines. -/
def IsWord (text : String) : Prop :=
  ∀ c ∈ text.toList, c ≠ ' ' ∧ c ≠ '\n'

instance (text : String) : Decidable (IsWord text) :=
  List.decidableBAll (fun c => c ≠ ' ' ∧ c ≠ '\n') text.toList

namespace Alphabet

/-- A letter followed by letters, digits and underscores. -/
def isIdentifier (alphabet : Alphabet) (name : String) : Bool :=
  name.toList.head?.any alphabet.letter &&
    name.toList.tail.all fun c => alphabet.letter c || alphabet.digit c || c == '_'

variable {alphabet : Alphabet} {name : String}

theorem exists_of_isIdentifier (h : alphabet.isIdentifier name) :
    ∃ first rest, name.toList = first :: rest ∧ alphabet.letter first ∧
      ∀ c ∈ rest, alphabet.letter c ∨ alphabet.digit c ∨ c = '_' := by
  cases hname : name.toList with
  | nil => simp [isIdentifier, hname] at h
  | cons first rest =>
    simp only [isIdentifier, hname, List.head?_cons, Option.any_some, List.tail_cons,
      Bool.and_eq_true, List.all_eq_true, Bool.or_eq_true, beq_iff_eq, or_assoc] at h
    exact ⟨first, rest, rfl, h⟩

theorem isWord_of_isIdentifier (h : alphabet.isIdentifier name) : IsWord name := by
  obtain ⟨first, rest, hname, hfirst, hrest⟩ := exists_of_isIdentifier h
  intro c hc
  rw [hname] at hc
  rcases List.mem_cons.mp hc with rfl | hc
  · exact alphabet.letter_inside c hfirst
  · rcases hrest c hc with hletter | hdigit | rfl
    · exact alphabet.letter_inside c hletter
    · exact alphabet.digit_inside c hdigit
    · decide

theorem isDigit_eq_false_of_isAlpha {c : Char} (h : c.isAlpha) : c.isDigit = false := by
  have hletter : (65 ≤ c.toNat ∧ c.toNat ≤ 90) ∨ (97 ≤ c.toNat ∧ c.toNat ≤ 122) := by
    rcases (Bool.or_eq_true _ _).mp h with hupper | hlower
    · exact .inl (of_decide_eq_true hupper)
    · have hbounds := (Bool.and_eq_true _ _).mp hlower
      exact .inr ⟨of_decide_eq_true hbounds.1, of_decide_eq_true hbounds.2⟩
  rw [Bool.eq_false_iff]
  intro hdigit
  have hrange : 48 ≤ c.toNat ∧ c.toNat ≤ 57 := Char.isDigit_iff_toNat.mp hdigit
  omega

/-- The letters from A to Z and the decimal digits. -/
def latin : Alphabet where
  letter := Char.isAlpha
  digit := Char.isDigit
  letter_opens c h := by
    refine ⟨isDigit_eq_false_of_isAlpha h, ?_, ?_⟩ <;> (rintro rfl; revert h; decide)
  letter_inside c h := by
    constructor <;> (rintro rfl; revert h; decide)
  digit_inside c h := by
    constructor <;> (rintro rfl; revert h; decide)

end Alphabet

/-- Lists of texts that one character separates are equal if they read the same. -/
theorem eq_of_intercalate_eq {c : Char} {texts others : List String} (htexts : texts ≠ [])
    (hothers : others ≠ []) (hc : ∀ text ∈ texts, c ∉ text.toList)
    (hcother : ∀ text ∈ others, c ∉ text.toList)
    (h : (String.singleton c).intercalate texts = (String.singleton c).intercalate others) :
    texts = others := by
  have hsplit := String.toList_split_intercalate hc
  rw [h, String.toList_split_intercalate hcother, if_neg htexts, if_neg hothers] at hsplit
  exact hsplit.symm

theorem notMem_intercalate {c d : Char} (hd : c ≠ d) {texts : List String}
    (hc : ∀ text ∈ texts, c ∉ text.toList) :
    c ∉ ((String.singleton d).intercalate texts).toList := by
  induction texts with
  | nil => simp
  | cons text rest ih =>
    have htext := hc text List.mem_cons_self
    have hrest := ih fun other hother => hc other (List.mem_cons_of_mem text hother)
    by_cases hnil : rest = []
    · simpa [hnil] using htext
    · rw [String.intercalate_cons_of_ne_nil hnil]
      simp only [String.toList_append, String.toList_singleton, List.mem_append,
        List.mem_singleton, not_or]
      exact ⟨⟨htext, hd⟩, hrest⟩

theorem isDigit_of_mem_repr {number : Nat} {c : Char} (h : c ∈ number.repr.toList) :
    c.isDigit := by
  rw [Nat.toList_repr] at h
  exact Nat.isDigit_of_mem_toDigits (by decide) (by decide) h

theorem sign_or_isDigit_of_mem_repr {number : Int} {c : Char} (h : c ∈ number.repr.toList) :
    c = '-' ∨ c.isDigit := by
  rw [Int.repr_eq_if] at h
  split at h
  · exact .inr (isDigit_of_mem_repr h)
  · rw [String.toList_append, List.mem_append] at h
    rcases h with hsign | hdigits
    · exact .inl (List.mem_singleton.mp hsign)
    · exact .inr (isDigit_of_mem_repr hdigits)

namespace IsWord

theorem append {first last : String} (hfirst : IsWord first) (hlast : IsWord last) :
    IsWord (first ++ last) := by
  intro c hc
  rw [String.toList_append, List.mem_append] at hc
  exact hc.elim (hfirst c) (hlast c)

theorem int_repr (number : Int) : IsWord number.repr := by
  intro c hc
  rcases sign_or_isDigit_of_mem_repr hc with rfl | hdigit
  · decide
  · exact Alphabet.latin.digit_inside c hdigit

theorem nat_repr (number : Nat) : IsWord number.repr := by
  exact int_repr number

end IsWord

theorem Label.text_injective {one other : Label} (h : one.text = other.text) : one = other := by
  obtain ⟨first⟩ := one
  obtain ⟨second⟩ := other
  have hnumber := Nat.repr_injective ((String.append_right_inj "_L").mp h)
  exact congrArg Label.mk hnumber

theorem Label.isWord_text (label : Label) : IsWord label.text :=
  .append (by decide) (.nat_repr label.number)

theorem Temp.toList_text (temp : Temp) :
    temp.text.toList = '_' :: 't' :: temp.number.repr.toList := by
  simp [Temp.text]

theorem Temp.isWord_text (temp : Temp) : IsWord temp.text :=
  .append (by decide) (.nat_repr temp.number)

theorem ArithOp.isWord_text (op : ArithOp) : IsWord op.text := by
  cases op <;> decide

theorem ArithOp.text_injective {one other : ArithOp} (h : one.text = other.text) :
    one = other := by
  revert h
  cases one <;> cases other <;> decide

theorem RelOp.isWord_text (op : RelOp) : IsWord op.text := by
  cases op <;> decide

theorem RelOp.text_injective {one other : RelOp} (h : one.text = other.text) : one = other := by
  revert h
  cases one <;> cases other <;> decide

/-- A variable that is called by an identifier if it has a name of its own. -/
def Var.IsSpelled (alphabet : Alphabet) (var : Var) : Prop :=
  ∀ name, var = .named name → alphabet.isIdentifier name

def Value.IsSpelled (alphabet : Alphabet) (value : Value) : Prop :=
  ∀ var, value = .var var → var.IsSpelled alphabet

variable {alphabet : Alphabet}

namespace Var.IsSpelled

variable {var : Var}

theorem isWord_text (h : var.IsSpelled alphabet) : IsWord var.text := by
  cases var with
  | named name => exact Alphabet.isWord_of_isIdentifier (h name rfl)
  | temp t => exact t.isWord_text

/-- Temporaries begin with an underscore and names do not. -/
theorem plain (h : var.IsSpelled alphabet) : var.Plain := by
  cases var with
  | temp t => trivial
  | named name =>
    intro t heq
    obtain ⟨first, rest, hname, hfirst, -⟩ := Alphabet.exists_of_isIdentifier (h name rfl)
    rw [heq, t.toList_text] at hname
    exact (alphabet.letter_opens first hfirst).2.2 (List.cons.inj hname).1.symm

/-- A variable is not written like a number. -/
theorem text_ne_repr (h : var.IsSpelled alphabet) (number : Int) : var.text ≠ number.repr := by
  intro heq
  -- One character that no number has is enough, and the first of a variable is one.
  have hchars (c : Char) (hc : c ∈ var.text.toList) : c = '-' ∨ c.isDigit := by
    rw [heq] at hc
    exact sign_or_isDigit_of_mem_repr hc
  cases var with
  | temp t => exact absurd (hchars '_' (by simp [text, t.toList_text])) (by decide)
  | named name =>
    obtain ⟨first, rest, hname, hfirst, -⟩ := Alphabet.exists_of_isIdentifier (h name rfl)
    obtain ⟨hdigit, hminus, -⟩ := alphabet.letter_opens first hfirst
    rcases hchars first (by simp [text, hname]) with rfl | hisDigit
    · exact hminus rfl
    · simp [hdigit] at hisDigit

end Var.IsSpelled

namespace Value.IsSpelled

theorem isWord_text {value : Value} (h : value.IsSpelled alphabet) : IsWord value.text := by
  cases value with
  | imm number => exact .int_repr number.toInt
  | var v => exact (h v rfl).isWord_text

theorem text_injective {one other : Value} (hone : one.IsSpelled alphabet)
    (hother : other.IsSpelled alphabet) (h : one.text = other.text) : one = other := by
  cases one with
  | imm first =>
    cases other with
    | imm second => exact congrArg Value.imm (Int64.toInt_inj.mp (Int.repr_injective h))
    | var second => exact absurd h.symm ((hother second rfl).text_ne_repr first.toInt)
  | var first =>
    cases other with
    | imm second => exact absurd h ((hone first rfl).text_ne_repr second.toInt)
    | var second =>
      exact congrArg Value.var ((hone first rfl).plain.text_injective (hother second rfl).plain h)

end Value.IsSpelled

namespace Instr

/-- All names in an instruction are identifiers. -/
def IsSpelled (alphabet : Alphabet) (instr : Instr) : Prop :=
  instr.Within (alphabet.isIdentifier ·) (alphabet.isIdentifier ·)

theorem IsSpelled.dst {instr : Instr} (h : instr.IsSpelled alphabet) {var : Var}
    (hvar : instr.dst? = some var) : var.IsSpelled alphabet := by
  rintro name rfl
  exact Within.dst h name hvar

theorem IsSpelled.operand {instr : Instr} (h : instr.IsSpelled alphabet) {value : Value}
    (hvalue : value ∈ instr.operands) : value.IsSpelled alphabet := by
  rintro _ rfl name rfl
  exact Within.operands h name hvalue

theorem IsSpelled.dst_inj {one other : Instr} (hone : one.IsSpelled alphabet)
    (hother : other.IsSpelled alphabet) {var var' : Var} (hvar : one.dst? = some var)
    (hvar' : other.dst? = some var') (h : var.text = var'.text) : var = var' :=
  (hone.dst hvar).plain.text_injective (hother.dst hvar').plain h

theorem IsSpelled.operand_inj {one other : Instr} (hone : one.IsSpelled alphabet)
    (hother : other.IsSpelled alphabet) {value value' : Value} (hvalue : value ∈ one.operands)
    (hvalue' : value' ∈ other.operands) (h : value.text = value'.text) : value = value' :=
  (hone.operand hvalue).text_injective (hother.operand hvalue') h

/-- The words of an instruction's line. -/
def words : Instr → List String
  | .assign dst source => [dst.text, "=", source.text]
  | .binary dst left op right => [dst.text, "=", left.text, op.text, right.text]
  | .branch left op right target sense =>
      [if sense then "if" else "ifFalse", left.text, op.text, right.text, "goto", target.text]
  | .jump target => ["goto", target.text]
  | .label place => [place.text]

theorem text_eq_intercalate (instr : Instr) : instr.text = " ".intercalate instr.words := by
  cases instr with
  | branch left op right target sense =>
    cases sense <;> simp [text, words, String.append_assoc, ← String.toList_inj]
  | assign | binary | jump | label =>
    simp [text, words, String.append_assoc, ← String.toList_inj]

theorem words_ne_nil (instr : Instr) : instr.words ≠ [] := by
  cases instr <;> simp [words]

theorem isWord_of_mem_words {instr : Instr} (h : instr.IsSpelled alphabet) :
    ∀ word ∈ instr.words, IsWord word := by
  cases instr with
  | assign dst source =>
    have hdst := (h.dst rfl).isWord_text
    have hsource : IsWord source.text := (h.operand (by simp [operands])).isWord_text
    simp only [words, List.forall_mem_cons]
    exact ⟨hdst, by decide, hsource, by simp⟩
  | binary dst left op right =>
    have hdst := (h.dst rfl).isWord_text
    have hleft : IsWord left.text := (h.operand (by simp [operands])).isWord_text
    have hright : IsWord right.text := (h.operand (by simp [operands])).isWord_text
    simp only [words, List.forall_mem_cons]
    exact ⟨hdst, by decide, hleft, op.isWord_text, hright, by simp⟩
  | branch left op right target sense =>
    have hkeyword : IsWord (if sense then "if" else "ifFalse") := by
      cases sense <;> decide
    have hleft : IsWord left.text := (h.operand (by simp [operands])).isWord_text
    have hright : IsWord right.text := (h.operand (by simp [operands])).isWord_text
    simp only [words, List.forall_mem_cons]
    exact ⟨hkeyword, hleft, op.isWord_text, hright, by decide, target.isWord_text, by simp⟩
  | jump target =>
    simp only [words, List.forall_mem_cons]
    exact ⟨by decide, target.isWord_text, by simp⟩
  | label place =>
    simp only [words, List.forall_mem_cons]
    exact ⟨place.isWord_text, by simp⟩

/-- Instructions of different kinds have different numbers of words. -/
theorem words_injective {one other : Instr} (hone : one.IsSpelled alphabet)
    (hother : other.IsSpelled alphabet) (h : one.words = other.words) : one = other := by
  cases one with
  | assign dst source =>
    cases other with
    | assign dst' source' =>
      simp only [words, List.cons.injEq, and_true, true_and] at h
      obtain ⟨hdst, hsource⟩ := h
      rw [hone.dst_inj hother rfl rfl hdst,
        hone.operand_inj hother (by simp [operands]) (by simp [operands]) hsource]
    | binary | branch | jump | label => simp [words] at h
  | binary dst left op right =>
    cases other with
    | binary dst' left' op' right' =>
      simp only [words, List.cons.injEq, and_true, true_and] at h
      obtain ⟨hdst, hleft, hop, hright⟩ := h
      rw [hone.dst_inj hother rfl rfl hdst,
        hone.operand_inj hother (by simp [operands]) (by simp [operands]) hleft,
        ArithOp.text_injective hop,
        hone.operand_inj hother (by simp [operands]) (by simp [operands]) hright]
    | assign | branch | jump | label => simp [words] at h
  | branch left op right target sense =>
    cases other with
    | branch left' op' right' target' sense' =>
      simp only [words, List.cons.injEq, and_true, true_and] at h
      obtain ⟨hkeyword, hleft, hop, hright, htarget⟩ := h
      have hsense : sense = sense' := by
        revert hkeyword
        cases sense <;> cases sense' <;> decide
      rw [hsense, hone.operand_inj hother (by simp [operands]) (by simp [operands]) hleft,
        RelOp.text_injective hop,
        hone.operand_inj hother (by simp [operands]) (by simp [operands]) hright,
        Label.text_injective htarget]
    | assign | binary | jump | label => simp [words] at h
  | jump target =>
    cases other with
    | jump target' =>
      simp only [words, List.cons.injEq, and_true, true_and] at h
      rw [Label.text_injective h]
    | assign | binary | branch | label => simp [words] at h
  | label place =>
    cases other with
    | label place' =>
      simp only [words, List.cons.injEq, and_true] at h
      rw [Label.text_injective h]
    | assign | binary | branch | jump => simp [words] at h

/-- A line gives back its instruction. -/
theorem text_injective {one other : Instr} (hone : one.IsSpelled alphabet)
    (hother : other.IsSpelled alphabet) (h : one.text = other.text) : one = other := by
  apply words_injective hone hother
  rw [text_eq_intercalate, text_eq_intercalate] at h
  refine @eq_of_intercalate_eq ' ' _ _ one.words_ne_nil other.words_ne_nil ?_ ?_ h
  · intro word hword hmem
    exact (isWord_of_mem_words hone word hword ' ' hmem).1 rfl
  · intro word hword hmem
    exact (isWord_of_mem_words hother word hword ' ' hmem).1 rfl

theorem newline_notMem_text {instr : Instr} (h : instr.IsSpelled alphabet) :
    '\n' ∉ instr.text.toList := by
  rw [text_eq_intercalate]
  refine @notMem_intercalate '\n' ' ' (by decide) instr.words ?_
  intro word hword hmem
  exact (isWord_of_mem_words h word hword '\n' hmem).2 rfl

end Instr

namespace Code

/-- All names in the code are identifiers. -/
def IsSpelled (alphabet : Alphabet) (code : Code) : Prop :=
  ∀ instr ∈ code, instr.IsSpelled alphabet

variable {code other : Code}

/-- Newlines stand between the lines and an empty line at the end. -/
theorem text_eq_intercalate (code : Code) : code.text = "\n".intercalate (code.lines ++ [""]) := by
  induction code with
  | nil => simp [text, lines]
  | cons instr rest ih =>
    calc text (instr :: rest) = instr.text ++ "\n" ++ text rest := by
          simp [text, lines]
      _ = instr.text ++ "\n" ++ "\n".intercalate (lines rest ++ [""]) := by
          rw [ih]
      _ = "\n".intercalate (lines (instr :: rest) ++ [""]) := by
          rw [← String.intercalate_cons_of_ne_nil (by simp)]
          rfl

theorem newline_notMem_lines (h : code.IsSpelled alphabet) :
    ∀ line ∈ code.lines ++ [""], '\n' ∉ line.toList := by
  intro line hline
  rcases List.mem_append.mp hline with hmem | hlast
  · obtain ⟨instr, hinstr, rfl⟩ := List.mem_map.mp hmem
    exact Instr.newline_notMem_text (h instr hinstr)
  · rw [List.mem_singleton.mp hlast]
    decide

theorem lines_injective (hcode : code.IsSpelled alphabet) (hother : other.IsSpelled alphabet)
    (h : code.lines = other.lines) : code = other := by
  induction code generalizing other with
  | nil => exact (List.map_eq_nil_iff.mp h.symm).symm
  | cons instr rest ih =>
    cases other with
    | nil => exact List.map_eq_nil_iff.mp h
    | cons instr' rest' =>
      rw [IsSpelled, List.forall_mem_cons] at hcode hother
      obtain ⟨hinstr, hrest⟩ := List.cons.inj h
      rw [Instr.text_injective hcode.1 hother.1 hinstr, ih hcode.2 hother.2 hrest]

/-- Code whose names are identifiers has a text of its own. -/
theorem text_inj (hcode : code.IsSpelled alphabet) (hother : other.IsSpelled alphabet) :
    code.text = other.text ↔ code = other := by
  constructor
  · intro h
    rw [text_eq_intercalate, text_eq_intercalate] at h
    have hlines := @eq_of_intercalate_eq '\n' _ _ (by simp) (by simp)
      (newline_notMem_lines hcode) (newline_notMem_lines hother) h
    -- Both end with the empty line behind the last newline.
    exact lines_injective hcode hother (List.append_cancel_right hlines)
  · rintro rfl
    rfl

/-- A name with an underscore before it can be that of a temporary. -/
example : text [.assign (.named "_t0") (.imm 7)] = text [.assign (.temp ⟨0⟩) (.imm 7)] := by
  rfl

/-- Keywords as names, and a number that begins like an operator. -/
def keywords (op : RelOp) (number : Int64) : Code :=
  [.binary (.named "if") (.var (.named "goto")) .sub (.imm number),
    .branch (.var (.named "ifFalse")) op (.var (.temp ⟨1⟩)) ⟨10⟩ false,
    .label ⟨10⟩]

theorem isSpelled_keywords (op : RelOp) (number : Int64) :
    (keywords op number).IsSpelled .latin := by
  intro instr hinstr
  simp only [keywords, List.mem_cons, List.not_mem_nil, or_false] at hinstr
  rcases hinstr with rfl | rfl | rfl <;> constructor <;>
    simp [Instr.dst?, Instr.operands] <;> decide

theorem text_inj_keywords :
    (keywords .le (-1)).IsSpelled .latin ∧ (keywords .lt 1).IsSpelled .latin ∧
      (keywords .le (-1)).text ≠ (keywords .lt 1).text := by
  have hne : keywords .le (-1) ≠ keywords .lt 1 := by decide
  have hfirst := isSpelled_keywords .le (-1)
  have hsecond := isSpelled_keywords .lt 1
  exact ⟨hfirst, hsecond, fun h => hne ((text_inj hfirst hsecond).mp h)⟩

end Code

end ThreeAddress
