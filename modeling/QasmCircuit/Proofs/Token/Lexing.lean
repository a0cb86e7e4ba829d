import Mathlib.Data.List.TakeWhile
import QasmCircuit.Token.Lexer

/-!
# Spellings and the tokens they give

A spelling gives its token wherever it stands, as long as what follows cannot go on with it. `Ends` is that
condition for words, integers and numbers, and `Settled` says that a text begins with a token and not with
something between tokens.

The lexer takes as many characters as it can. So a proof cuts the text at the first character of another kind,
which is where the spelling ends, and what the lexer takes there is the spelling as a whole.

> `Cursor.gives_word`, `Cursor.gives_integer`, `Cursor.gives_number`, `Cursor.gives_string`,
> `Cursor.gives_symbol`: a point in front of a spelling gives its token, and the next point is behind it.
-/

namespace QasmCircuit

open List Bool
open String (ofList ofList_toList)

namespace Lexeme

variable {c : Char} {cs ds : List Char} {context : Context} {l : Lexeme}

/-- Whether a text is a word, that is a name or a keyword. -/
def isWord (s : String) : Bool :=
  match s.toList with
  | [] => false
  | c :: cs => isWordStart c && cs.all isWordChar

def isNumber (s : String) : Bool := (number? s.toList).any fun l => l.rest.isEmpty

def isInteger (s : String) : Bool := !s.toList.isEmpty && s.toList.all Char.isDigit

/-- Whether a text can stand between double quotes. -/
def isQuotable (s : String) : Bool := s.toList.all fun c => c ≠ '"' && c ≠ '\n'

/-- What follows cannot go on with a word, an integer or a number. -/
def Ends (rest : List Char) : Prop := ∀ c ∈ rest.head?, isWordChar c = false ∧ c ≠ '.'

/-- A character that ends words and numbers. -/
def isBreak (c : Char) : Bool := !isWordChar c && c != '.'

theorem ends_cons {rest : List Char} (h : isBreak c) : Ends (c :: rest) := by
  intro d hd
  cases hd
  rwa [isBreak, and_eq_true, not_eq_true', bne_iff_ne] at h

theorem isWordChar_of_isWordStart (h : isWordStart c) : isWordChar c := by
  simp only [isWordStart, isWordChar, Char.isAlphanum, or_eq_true] at h ⊢
  rcases h with h | h
  · exact Or.inl (Or.inl h)
  · exact Or.inr h

theorem isWordChar_of_isDigit (h : c.isDigit) : isWordChar c := by
  simp [isWordChar, Char.isAlphanum, h]

theorem isWord_ofList (hc : isWordStart c) (hcs : cs.all isWordChar) : isWord (String.ofList (c :: cs)) := by
  simp [isWord, hc, hcs]

/-! ## Cutting a text at the first character of another kind -/

variable {p : Char → Bool} {s : String} {whole r rest : List Char}

theorem takeWhile_append_of_stop (hstop : ∀ c ∈ rest.head?, p c = false) :
    (cs ++ rest).takeWhile p = cs.takeWhile p := by
  rw [takeWhile_append]
  split
  · next hlen =>
    have hall : cs.takeWhile p = cs := (List.takeWhile_prefix p).eq_of_length hlen
    cases rest with
    | nil => simp [hall]
    | cons c rest => simp [hall, hstop c rfl]
  · rfl

theorem dropWhile_append_of_stop (hstop : ∀ c ∈ rest.head?, p c = false) :
    (cs ++ rest).dropWhile p = cs.dropWhile p ++ rest := by
  rw [dropWhile_append]
  split
  · next hnil =>
    rw [List.isEmpty_iff.mp hnil, nil_append]
    cases rest with
    | nil => rfl
    | cons c rest => rw [dropWhile_cons, hstop c rfl]; rfl
  · rfl

theorem Ends.not_digit (h : Ends rest) : ∀ c ∈ rest.head?, c.isDigit = false := by
  intro c hc
  by_contra hd
  have hword : isWordChar c := isWordChar_of_isDigit (by simpa using hd)
  exact absurd (h c hc).1 (by simp [hword])

theorem digits_append (h : Ends rest) : digits (cs ++ rest) = ((digits cs).1, (digits cs).2 ++ rest) := by
  rw [digits, digits, takeWhile_append_of_stop h.not_digit, dropWhile_append_of_stop h.not_digit]

/-! ## Words -/

theorem isWord_iff : isWord s ↔ ∃ c cs, s.toList = c :: cs ∧ isWordStart c ∧ cs.all isWordChar := by
  unfold isWord
  constructor
  · intro h
    split at h
    · exact absurd h (by simp)
    · next c cs hs =>
      rw [and_eq_true] at h
      exact ⟨c, cs, hs, h⟩
  · rintro ⟨c, cs, hs, hc, hcs⟩
    simp only [hs, hc, hcs, Bool.and_self]

theorem all_isWordChar_of_isWord (h : isWord s) : s.toList.all isWordChar := by
  obtain ⟨c, cs, hs, hc, hcs⟩ := isWord_iff.mp h
  rw [hs, all_cons, isWordChar_of_isWordStart hc, hcs]
  rfl

theorem word_append (hs : isWord s) (hrest : Ends rest) (hnames : context.names) : word context (s.toList ++ rest) =
      match Keyword.ofText? context.keywords s with
      | some k => ⟨.keyword k, s.toList, rest⟩
      | none => ⟨.name, s.toList, rest⟩ := by
  have hall : ∀ c ∈ s.toList, isWordChar c :=
    all_eq_true.mp (all_isWordChar_of_isWord hs)
  have hstop : ∀ c ∈ rest.head?, isWordChar c = false := fun c hc => (hrest c hc).1
  have htake : (s.toList ++ rest).takeWhile isWordChar = s.toList := by
    rw [takeWhile_append_of_stop hstop, takeWhile_eq_self_iff.mpr hall]
  have hdrop : (s.toList ++ rest).dropWhile isWordChar = rest := by
    rw [dropWhile_append_of_stop hstop, dropWhile_eq_nil_iff.mpr hall, nil_append]
  unfold word
  dsimp only
  rw [htake, hdrop, String.ofList_toList]
  exact if_pos hnames

/-! ## Integers and numbers -/

theorem isInteger_iff : isInteger s ↔ s.toList ≠ [] ∧ ∀ c ∈ s.toList, c.isDigit := by
  simp [isInteger]

theorem digits_eq_self (h : ∀ c ∈ cs, c.isDigit) : digits cs = (cs, []) := by
  rw [digits, takeWhile_eq_self_iff.mpr h, dropWhile_eq_nil_iff.mpr h]

theorem digits_append_snd (cs : List Char) : (digits cs).1 ++ (digits cs).2 = cs :=
  takeWhile_append_dropWhile

theorem sign_append_snd (cs : List Char) : (sign cs).1 ++ (sign cs).2 = cs := by
  unfold sign
  split <;> rfl

theorem fraction_append_snd (whole cs : List Char) : (fraction whole cs).1 ++ (fraction whole cs).2 = cs := by
  unfold fraction
  split
  · dsimp only
    split
    · rfl
    · rw [cons_append, digits_append_snd]
  · rfl

theorem exponent_append_snd (cs : List Char) : (exponent cs).1 ++ (exponent cs).2 = cs := by
  unfold exponent
  split
  · split
    · dsimp only
      split
      · rfl
      · rw [cons_append, cons_append, append_assoc, digits_append_snd, sign_append_snd]
    · rfl
  · rfl

/-- A number is some of the text in front, and the rest follows it. -/
theorem number?_append_rest (h : number? cs = some l) : l.terminal = .number ∧ l.spelling ++ l.rest = cs := by
  unfold number? at h
  dsimp only at h
  split at h
  · exact absurd h (by simp)
  · injection h with h
    subst h
    refine ⟨rfl, ?_⟩
    rw [append_assoc, exponent_append_snd, append_assoc, fraction_append_snd, digits_append_snd]

theorem fraction_append (h : Ends rest) :
    fraction whole (cs ++ rest) = ((fraction whole cs).1, (fraction whole cs).2 ++ rest) := by
  cases cs with
  | nil =>
    cases rest with
    | nil => rfl
    | cons c rest =>
      have hc : c ≠ '.' := (h c rfl).2
      unfold fraction
      split
      · next heq => exact absurd (List.cons.inj heq).1 hc
      · rfl
  | cons c cs =>
    by_cases hc : c = '.'
    · subst hc
      simp only [cons_append, fraction, digits_append h]
      split <;> rfl
    · unfold fraction
      split
      · next heq => exact absurd (List.cons.inj heq).1 hc
      · split
        · next heq => exact absurd (List.cons.inj heq).1 hc
        · rfl

theorem sign_append (hne : cs ≠ []) : sign (cs ++ rest) = ((sign cs).1, (sign cs).2 ++ rest) := by
  obtain ⟨c, cs, rfl⟩ := exists_cons_of_ne_nil hne
  by_cases hp : c = '+'
  · subst hp; rfl
  · by_cases hm : c = '-'
    · subst hm; rfl
    · simp [sign, hp, hm]

theorem exponent_append (hrest : Ends rest) (hall : (exponent cs).2 = []) : exponent (cs ++ rest) = (cs, rest) := by
  cases cs with
  | nil =>
    cases rest with
    | nil => rfl
    | cons c rest =>
      have hc : (decide (c = 'e') || decide (c = 'E')) = false := by
        have hword := (hrest c rfl).1
        by_contra hne
        rw [not_eq_false, or_eq_true, decide_eq_true_eq, decide_eq_true_eq] at hne
        rcases hne with rfl | rfl <;> exact absurd hword (by decide)
      simp only [nil_append, exponent, hc, false_eq_true, if_false]
  | cons e r =>
    have hwhole := exponent_append_snd (e :: r)
    simp only [cons_append, exponent] at hall hwhole ⊢
    split at hall
    · next he =>
      simp only [he, if_true] at hwhole ⊢
      split at hall
      · exact absurd hall (by simp)
      · next hds =>
        have hr : r ≠ [] := by
          rintro rfl
          exact hds rfl
        rw [if_neg hds] at hwhole
        dsimp only at hall hwhole
        rw [hall, append_nil] at hwhole
        rw [sign_append hr, digits_append hrest, if_neg hds]
        dsimp only
        rw [hall, nil_append, hwhole]
    · exact absurd hall (by simp)

/-- A number reads the same whatever follows it, as long as that cannot go on with it. -/
theorem number?_append (hs : isNumber s) (hrest : Ends rest) :
    number? (s.toList ++ rest) = some ⟨.number, s.toList, rest⟩ := by
  unfold isNumber at hs
  cases hn : number? s.toList with
  | none => rw [hn] at hs; exact absurd hs (by simp)
  | some l =>
    rw [hn, Option.any_some, List.isEmpty_iff] at hs
    unfold number? at hn ⊢
    dsimp only at hn ⊢
    split at hn
    · exact absurd hn (by simp)
    · next hsome =>
      injection hn with hn
      have hexp : (exponent (fraction (digits s.toList).1 (digits s.toList).2).2).2 = [] := by
        rw [← hs, ← hn]
      rw [digits_append hrest, fraction_append hrest, if_neg hsome, exponent_append hrest hexp]
      dsimp only
      rw [append_assoc, fraction_append_snd, digits_append_snd]

/-- A number begins with a digit or with a point. -/
theorem isNumber_cons (hs : isNumber s) : ∃ c cs, s.toList = c :: cs ∧ (c.isDigit || decide (c = '.')) := by
  have hn := @number?_append s [] hs (by intro c hc; exact absurd hc (by simp))
  rw [append_nil] at hn
  cases hl : s.toList with
  | nil => rw [hl] at hn; exact absurd hn (by simp [number?, digits, fraction])
  | cons c cs =>
    refine ⟨c, cs, rfl, ?_⟩
    by_contra hc
    rw [not_eq_true, or_eq_false_iff, decide_eq_false_iff_not] at hc
    rw [hl] at hn
    simp [number?, digits, fraction, hc.1, hc.2] at hn

/-! ## One token -/

theorem not_isWordStart_of_isDigit (h : c.isDigit) : isWordStart c = false := by
  by_contra hw
  rw [not_eq_false, isWordStart, or_eq_true, decide_eq_true_eq] at hw
  rcases hw with hw | rfl
  · unfold Char.isAlpha Char.isUpper Char.isLower at hw
    simp only [Char.isDigit, or_eq_true, and_eq_true, decide_eq_true_eq, ge_iff_le, UInt32.le_iff_toNat_le] at h hw
    have hnine : '9'.val.toNat = 57 := rfl
    have hupper : 'A'.val.toNat = 65 := rfl
    have hlower : 'a'.val.toNat = 97 := rfl
    omega
  · exact absurd h (by decide)

theorem read?_word (hs : isWord s) (hrest : Ends rest) (hnames : context.names) : read? context (s.toList ++ rest) =
      match Keyword.ofText? context.keywords s with
      | some k => some ⟨.keyword k, s.toList, rest⟩
      | none => some ⟨.name, s.toList, rest⟩ := by
  have hword := word_append hs hrest hnames
  obtain ⟨c, cs, hl, hc, -⟩ := isWord_iff.mp hs
  rw [hl] at hword ⊢
  rw [cons_append] at hword ⊢
  rw [read?, if_pos hc, hword]
  split <;> rfl

theorem read?_integer (hs : isInteger s) (hrest : Ends rest)
    (hintegers : context.integers) : read? context (s.toList ++ rest) = some ⟨.integer, s.toList, rest⟩ := by
  obtain ⟨hne, hall⟩ := isInteger_iff.mp hs
  have hdigits : digits (s.toList ++ rest) = (s.toList, rest) := by
    rw [digits_append hrest, digits_eq_self hall]
    rfl
  obtain ⟨c, cs, hl⟩ := exists_cons_of_ne_nil hne
  have hc : c.isDigit := hall c (by rw [hl]; exact mem_cons_self)
  rw [hl] at hdigits ⊢
  rw [cons_append] at hdigits ⊢
  rw [read?, not_isWordStart_of_isDigit hc, if_neg Bool.false_ne_true, hc, hintegers,
    Bool.and_self, if_pos rfl, hdigits]

theorem read?_number (hs : isNumber s) (hrest : Ends rest)
    (hintegers : context.integers = false) : read? context (s.toList ++ rest) = some ⟨.number, s.toList, rest⟩ := by
  have hnumber := number?_append hs hrest
  obtain ⟨c, cs, hl, hc⟩ := isNumber_cons hs
  have hstart : isWordStart c = false := by
    rw [or_eq_true, decide_eq_true_eq] at hc
    rcases hc with hc | rfl
    · exact not_isWordStart_of_isDigit hc
    · decide
  rw [hl] at hnumber ⊢
  rw [cons_append] at hnumber ⊢
  rw [read?, hstart, if_neg Bool.false_ne_true, hintegers, Bool.and_false, if_neg Bool.false_ne_true,
    hc, if_pos rfl, hnumber]

theorem read?_string (hs : isQuotable s) : read? context ('"' :: s.toList ++ '"' :: rest) =
      some ⟨.string, '"' :: s.toList ++ ['"'], rest⟩ := by
  have hall : ∀ c ∈ s.toList, (decide (c ≠ '"') && decide (c ≠ '\n')) := all_eq_true.mp hs
  have hstop : ∀ c ∈ ('"' :: rest).head?, (decide (c ≠ '"') && decide (c ≠ '\n')) = false := by
    intro c hc
    rw [head?_cons, Option.mem_some_iff] at hc
    rw [← hc]
    decide
  have hdigit : '"'.isDigit = false := by decide
  rw [cons_append, read?, if_neg (by decide), hdigit, Bool.false_and, if_neg Bool.false_ne_true,
    if_neg (by decide), if_pos rfl, string?]
  rw [takeWhile_append_of_stop hstop, dropWhile_append_of_stop hstop,
    takeWhile_eq_self_iff.mpr hall, dropWhile_eq_nil_iff.mpr hall]
  rfl

/-- A symbol of one character. A minus sign counts as one only where an arrow has no use. -/
theorem read?_symbol {symbol : Symbol} (hc : Symbol.ofChar? c = some symbol)
    (hminus : c = '-' → context.minus) : read? context (c :: rest) = some ⟨.symbol symbol, [c], rest⟩ := by
  have hplain : isWordStart c = false ∧ c.isDigit = false ∧ c ≠ '.' ∧ c ≠ '"' ∧ c ≠ '=' := by
    unfold Symbol.ofChar? at hc
    split at hc
    all_goals first
      | decide
      | exact absurd hc (by simp)
  obtain ⟨hword, hdigit, hdot, hquote, hequals⟩ := hplain
  simp only [read?, hword, hdigit, hdot, hquote, false_eq_true, if_false, Bool.false_and, decide_false, Bool.or_self]
  unfold symbol?
  split
  · next heq => exact absurd (List.cons.inj heq).1 hequals
  · next heq =>
    obtain ⟨rfl, rfl⟩ := List.cons.inj heq
    rw [if_pos (hminus rfl)]
    injection hc with hc
    rw [← hc]
  · next heq =>
    obtain ⟨rfl, rfl⟩ := List.cons.inj heq
    rw [hc]
    rfl
  · next heq => exact absurd heq (by simp)

theorem read?_equals : read? context ('=' :: '=' :: rest) = some ⟨.symbol .equals, ['=', '='], rest⟩ := by
  have hdigit : '='.isDigit = false := by decide
  rw [read?, if_neg (by decide), hdigit, Bool.false_and, if_neg Bool.false_ne_true,
    if_neg (by decide), if_neg (by decide), symbol?]

theorem read?_arrow (hminus : context.minus = false) :
    read? context ('-' :: '>' :: rest) = some ⟨.symbol .arrow, ['-', '>'], rest⟩ := by
  have hdigit : '-'.isDigit = false := by decide
  rw [read?, if_neg (by decide), hdigit, Bool.false_and, if_neg Bool.false_ne_true,
    if_neg (by decide), if_neg (by decide), symbol?, hminus, if_neg Bool.false_ne_true]

/-! ## A token is the beginning of a text -/

theorem isWord_text (k : Keyword) : isWord k.text := by
  cases k with
  | function f => cases f <;> decide
  | _ => decide

theorem afterSpelling?_append (h : afterSpelling? cs ds = some rest) : cs ++ rest = ds := by
  fun_induction afterSpelling? cs ds with
  | case1 ds => injection h with h; rw [h]; rfl
  | case2 => exact absurd h (by simp)
  | case3 cs d ds ih => rw [cons_append, ih h]
  | case4 => exact absurd h (by simp)

theorem afterSpelling?_append_self (cs rest : List Char) : afterSpelling? cs (cs ++ rest) = some rest := by
  induction cs with
  | nil => rfl
  | cons c cs ih => rw [cons_append, afterSpelling?, if_pos rfl, ih]

/-- What is read is a beginning of the text, and not an empty one. -/
def Begins (cs : List Char) (l : Lexeme) : Prop := l.spelling ≠ [] ∧ l.spelling ++ l.rest = cs

theorem begins_word (hc : isWordStart c) : Begins (c :: cs) (word context (c :: cs)) := by
  have hwhole : (c :: cs).takeWhile isWordChar ≠ [] := by
    rw [takeWhile_cons, if_pos (isWordChar_of_isWordStart hc)]
    exact cons_ne_nil _ _
  have hkeywords : ∀ keywords : List Keyword, Begins (c :: cs)
      (match Keyword.ofText? keywords (ofList ((c :: cs).takeWhile isWordChar)) with
        | some k => ⟨.keyword k, (c :: cs).takeWhile isWordChar, (c :: cs).dropWhile isWordChar⟩
        | none => ⟨.name, (c :: cs).takeWhile isWordChar, (c :: cs).dropWhile isWordChar⟩) := by
    intro keywords
    split <;> exact ⟨hwhole, takeWhile_append_dropWhile⟩
  unfold word
  dsimp only
  split
  · exact hkeywords _
  · cases hpart : context.keywords.findSome? fun k => (afterSpelling? k.text.toList (c :: cs)).map
      fun rest => (⟨.keyword k, k.text.toList, rest⟩ : Lexeme) with
    | none => exact hkeywords _
    | some l =>
      obtain ⟨k, -, hk⟩ := exists_of_findSome?_eq_some hpart
      obtain ⟨rest, hafter, rfl⟩ := Option.map_eq_some_iff.mp hk
      obtain ⟨d, ds, hd, -, -⟩ := isWord_iff.mp (isWord_text k)
      refine ⟨?_, afterSpelling?_append hafter⟩
      rw [hd]
      exact cons_ne_nil _ _

theorem begins_of_number? (h : number? cs = some l) : Begins cs l := by
  refine ⟨?_, (number?_append_rest h).2⟩
  unfold number? at h
  dsimp only at h
  split at h
  · exact absurd h (by simp)
  · next hsome =>
    injection h with h
    rw [← h]
    intro hnil
    rw [append_eq_nil_iff, append_eq_nil_iff] at hnil
    refine hsome ?_
    rw [and_eq_true, List.isEmpty_iff, List.isEmpty_iff]
    exact hnil.1

theorem begins_of_string? (h : string? cs = some l) : Begins ('"' :: cs) l := by
  unfold string? at h
  dsimp only at h
  split at h
  · next rest hdrop =>
    injection h with h
    rw [← h]
    refine ⟨by simp, ?_⟩
    rw [cons_append, cons_append, append_assoc, singleton_append, ← hdrop, takeWhile_append_dropWhile]
  · exact absurd h (by simp)

theorem begins_of_symbol? (h : symbol? context cs = some l) : Begins cs l := by
  unfold symbol? at h
  split at h
  · injection h with h
    rw [← h]
    exact ⟨by simp, rfl⟩
  · split at h
    all_goals
      injection h with h
      rw [← h]
      exact ⟨by simp, rfl⟩
  · obtain ⟨symbol, -, rfl⟩ := Option.map_eq_some_iff.mp h
    exact ⟨by simp, rfl⟩
  · exact absurd h (by simp)

theorem begins_of_read? (h : read? context cs = some l) : Begins cs l := by
  cases cs with
  | nil => exact absurd h (by simp [read?])
  | cons c cs =>
    rw [read?] at h
    split at h
    · next hword =>
      injection h with h
      rw [← h]
      exact begins_word hword
    · split at h
      · next hdigit =>
        rw [and_eq_true] at hdigit
        injection h with h
        rw [← h]
        refine ⟨?_, digits_append_snd _⟩
        show (c :: cs).takeWhile Char.isDigit ≠ []
        rw [takeWhile_cons, if_pos hdigit.1]
        exact cons_ne_nil _ _
      · split at h
        · exact begins_of_number? h
        · split at h
          · next hquote =>
            rw [hquote]
            exact begins_of_string? h
          · exact begins_of_symbol? h

/-! ## The spelling of a token is of its kind -/

theorem head_exponent (cs : List Char) : ∀ c ∈ (exponent cs).1.head?, c.isDigit = false ∧ c ≠ '.' := by
  unfold exponent
  split
  · split
    · next e r he =>
      dsimp only
      split
      · exact fun c hc => absurd hc (by simp)
      · intro c hc
        rw [cons_append, head?_cons, Option.mem_some_iff] at hc
        rw [← hc]
        rw [or_eq_true, decide_eq_true_eq, decide_eq_true_eq] at he
        rcases he with rfl | rfl <;> decide
    · exact fun c hc => absurd hc (by simp)
  · exact fun c hc => absurd hc (by simp)

theorem all_digits (cs : List Char) : ∀ c ∈ (digits cs).1, c.isDigit :=
  fun _ hc => mem_takeWhile_imp hc

theorem digits_append_of_stop (hds : ∀ c ∈ ds, c.isDigit)
    (hrest : ∀ c ∈ rest.head?, c.isDigit = false) : digits (ds ++ rest) = (ds, rest) := by
  rw [digits, takeWhile_append_of_stop hrest, dropWhile_append_of_stop hrest,
    takeWhile_eq_self_iff.mpr hds, dropWhile_eq_nil_iff.mpr hds]
  rfl

theorem sign_fst_append (hds : ∀ c ∈ ds, c.isDigit) : sign ((sign r).1 ++ ds) = ((sign r).1, ds) := by
  have hplain : sign ds = ([], ds) := by
    unfold sign
    split
    · next h => exact absurd (hds '+' (by simp)) (by decide)
    · next h => exact absurd (hds '-' (by simp)) (by decide)
    · rfl
  rw [sign.eq_def r]
  split
  · rfl
  · rfl
  · exact hplain

theorem exponent_fst (cs : List Char) : exponent (exponent cs).1 = ((exponent cs).1, []) := by
  rw [exponent.eq_def cs]
  split
  · split
    · next e r he =>
      dsimp only
      split
      · rfl
      · next hds =>
        have hall := all_digits (sign r).2
        have hdigits : digits (digits (sign r).2).1 = ((digits (sign r).2).1, []) := digits_eq_self hall
        simp only [cons_append, exponent, he, if_true, sign_fst_append hall, hdigits, hds]
        rfl
    · rfl
  · rfl

theorem fraction_fst_append (hrest : ∀ c ∈ rest.head?, c.isDigit = false ∧ c ≠ '.') :
    fraction whole ((fraction whole r).1 ++ rest) = ((fraction whole r).1, rest) := by
  have hplain : fraction whole rest = ([], rest) := by
    unfold fraction
    split
    · exact absurd rfl (hrest '.' rfl).2
    · rfl
  rw [fraction.eq_def whole r]
  split
  · next r =>
    dsimp only
    split
    · exact hplain
    · next hsome =>
      have hdigits := digits_append_of_stop (all_digits r) fun c hc => (hrest c hc).1
      rw [cons_append, fraction, hdigits]
      dsimp only
      rw [if_neg hsome]
  · exact hplain

theorem not_digit_fraction_append (hrest : ∀ c ∈ rest.head?, c.isDigit = false) :
    ∀ c ∈ ((fraction whole r).1 ++ rest).head?, c.isDigit = false := by
  unfold fraction
  split
  · dsimp only
    split
    · exact hrest
    · intro c hc
      rw [cons_append, head?_cons, Option.mem_some_iff] at hc
      rw [← hc]
      decide
  · exact hrest

theorem isNumber_of_number? (h : number? cs = some l) : isNumber (String.ofList l.spelling) := by
  unfold number? at h
  dsimp only at h
  split at h
  · exact absurd h (by simp)
  · next hsome =>
    injection h with h
    have hhead := head_exponent (fraction (digits cs).1 (digits cs).2).2
    have hdigits := digits_append_of_stop (all_digits cs)
      (@not_digit_fraction_append (digits cs).1 (digits cs).2 _ fun c hc => (hhead c hc).1)
    rw [← h, isNumber, String.toList_ofList, append_assoc, number?]
    dsimp only
    rw [hdigits]
    dsimp only
    rw [fraction_fst_append hhead]
    dsimp only
    rw [if_neg hsome, exponent_fst]
    rfl

theorem isQuotable_of_string? (h : string? cs = some l) :
    ∃ s, isQuotable s ∧ String.ofList l.spelling = "\"" ++ s ++ "\"" := by
  unfold string? at h
  dsimp only at h
  split at h
  · injection h with h
    refine ⟨ofList (cs.takeWhile fun c => c ≠ '"' && c ≠ '\n'), ?_, ?_⟩
    · rw [isQuotable, String.toList_ofList]
      exact all_takeWhile
    · apply String.toList_injective
      rw [← h, String.toList_ofList]
      simp
  · exact absurd h (by simp)

/-- What the spelling of a token of a kind is, where some keywords are in use. -/
def SpelledAs (context : Context) (s : String) : Terminal → Prop
  | .name => isWord s ∧ Keyword.ofText? context.keywords s = none
  | .integer => isInteger s
  | .number => isNumber s
  | .string => ∃ t, isQuotable t ∧ s = "\"" ++ t ++ "\""
  | _ => True

theorem spelledAs_word (hnames : context.names) (hc : isWordStart c) :
    SpelledAs context (ofList (word context (c :: cs)).spelling) (word context (c :: cs)).terminal := by
  have hword : isWord (ofList ((c :: cs).takeWhile isWordChar)) := by
    rw [takeWhile_cons, if_pos (isWordChar_of_isWordStart hc)]
    exact isWord_ofList hc all_takeWhile
  unfold word
  dsimp only
  rw [if_pos hnames]
  split
  · trivial
  · next hnone => exact ⟨hword, hnone⟩

theorem spelledAs_of_symbol? (h : symbol? context cs = some l) : SpelledAs context (ofList l.spelling) l.terminal := by
  unfold symbol? at h
  split at h
  · injection h with h
    rw [← h]
    trivial
  · split at h
    all_goals
      injection h with h
      rw [← h]
      trivial
  · obtain ⟨symbol, -, rfl⟩ := Option.map_eq_some_iff.mp h
    trivial
  · exact absurd h (by simp)

theorem spelledAs_of_read? (hnames : context.names) (h : read? context cs = some l) :
    SpelledAs context (ofList l.spelling) l.terminal := by
  cases cs with
  | nil => exact absurd h (by simp [read?])
  | cons c cs =>
    rw [read?] at h
    split at h
    · next hword =>
      injection h with h
      rw [← h]
      exact spelledAs_word hnames hword
    · split at h
      · next hdigit =>
        rw [and_eq_true] at hdigit
        injection h with h
        rw [← h]
        refine isInteger_iff.mpr ⟨?_, ?_⟩
        · rw [String.toList_ofList]
          show (c :: cs).takeWhile Char.isDigit ≠ []
          rw [takeWhile_cons, if_pos hdigit.1]
          exact cons_ne_nil _ _
        · rw [String.toList_ofList]
          exact all_digits _
      · split at h
        · have hnumber := isNumber_of_number? h
          rw [(number?_append_rest h).1]
          exact hnumber
        · split at h
          · have hstring := isQuotable_of_string? h
            unfold string? at h
            dsimp only at h
            split at h
            · injection h with h
              rw [← h] at hstring ⊢
              exact hstring
            · exact absurd h (by simp)
          · exact spelledAs_of_symbol? h

end Lexeme

namespace Cursor

variable {cs text rest : List Char} {context : Context} {c : Char} {s : String}

/-- A text that begins with a token, not with white space and not with a comment. -/
def Settled : List Char → Prop
  | [] => False
  | c :: cs => isSpace c = false ∧ (c = '/' → cs.head? ≠ some '/')

/-- At the beginning of a text, a token of the given kind and spelling, and what follows it. -/
def Gives (context : Context) (text : List Char) (terminal : Terminal) (spelling : String) (rest : List Char) : Prop :=
  ∀ c : Cursor, c.rest = text → ∃ p c', c.next context = .ok (⟨terminal, spelling, p⟩, c') ∧ c'.rest = rest

theorem skipSpace_of_settled (h : Settled cs) (line col : Nat) : skipSpace false line col cs = (cs, line, col) := by
  cases cs with
  | nil => exact absurd h (by simp [Settled])
  | cons c cs =>
    obtain ⟨hspace, hslash⟩ := h
    have hnewline : c ≠ '\n' := by
      rintro rfl
      exact absurd hspace (by decide)
    have hcomment : (decide (c = '/') && decide (cs.head? = some '/')) = false := by
      rw [and_eq_false_iff, decide_eq_false_iff_not, decide_eq_false_iff_not]
      by_cases hc : c = '/'
      · exact Or.inr (hslash hc)
      · exact Or.inl hc
    simp only [skipSpace, hnewline, hspace, hcomment, false_eq_true, if_false]

theorem Gives.of_read? {l : Lexeme} (hs : Settled text) (hl : Lexeme.read? context text = some l) :
    Gives context text l.terminal (ofList l.spelling) l.rest := by
  intro c hc
  have hskip : c.skip = c := by
    unfold skip
    rw [hc, skipSpace_of_settled hs, ← hc]
  obtain ⟨ch, cs, rfl⟩ : ∃ ch cs, text = ch :: cs := by
    cases text with
    | nil => exact absurd hs (by simp [Settled])
    | cons ch cs => exact ⟨ch, cs, rfl⟩
  unfold next
  dsimp only
  rw [hskip, hc, hl]
  exact ⟨_, _, rfl, rfl⟩

/-- White space in front of a token does not matter. -/
theorem next_space {c : Cursor} {b : Char} (hc : c.rest = b :: text) (hb : isSpace b) :
    ∃ c' : Cursor, c'.rest = text ∧ ∀ context, c.next context = c'.next context := by
  have hmove : ∃ line col, c.skip = skip ⟨text, line, col, c.last⟩ := by
    by_cases hn : b = '\n'
    · refine ⟨c.line + 1, 0, ?_⟩
      unfold skip
      rw [hc, skipSpace, if_pos hn]
    · refine ⟨c.line, c.col + 1, ?_⟩
      unfold skip
      rw [hc, skipSpace, if_neg hn, if_neg Bool.false_ne_true, if_pos hb]
  obtain ⟨line, col, hskip⟩ := hmove
  refine ⟨⟨text, line, col, c.last⟩, rfl, fun context => ?_⟩
  unfold next
  rw [hskip]

theorem Gives.space {b : Char} {terminal : Terminal} {spelling : String} (hb : isSpace b)
    (h : Gives context text terminal spelling rest) : Gives context (b :: text) terminal spelling rest := by
  intro c hc
  obtain ⟨c₁, hc₁, hnext⟩ := next_space hc hb
  rw [hnext]
  exact h c₁ hc₁

theorem settled_of_ne (hspace : isSpace c = false) (hslash : c ≠ '/') : Settled (c :: cs) :=
  ⟨hspace, fun h => absurd h hslash⟩

/-- What is no white space and no slash is told by any property that these do not have. -/
theorem settled_of_class {p : Char → Bool} (hc : p c) (hp : [' ', '\t', '\x0c', '\r', '\n', '/'].any p = false) :
    Settled (c :: cs) := by
  have hne : ∀ d ∈ [' ', '\t', '\x0c', '\r', '\n', '/'], c ≠ d := by
    rintro d hd rfl
    exact any_eq_false.mp hp c hd hc
  refine settled_of_ne ?_ (hne '/' (by simp))
  simp only [isSpace, or_eq_false_iff, decide_eq_false_iff_not]
  exact ⟨⟨⟨⟨hne ' ' (by simp), hne '\t' (by simp)⟩, hne '\x0c' (by simp)⟩, hne '\r' (by simp)⟩, hne '\n' (by simp)⟩

theorem settled_word (hs : Lexeme.isWord s) : Settled (s.toList ++ rest) := by
  obtain ⟨c, cs, hl, hc, -⟩ := Lexeme.isWord_iff.mp hs
  rw [hl, cons_append]
  exact settled_of_class hc (by decide)

theorem gives_keyword {k : Keyword} (hk : Keyword.ofText? context.keywords k.text = some k) (hrest : Lexeme.Ends rest)
    (hnames : context.names) : Gives context (k.text.toList ++ rest) (.keyword k) k.text rest := by
  have hword := Lexeme.isWord_text k
  have hread := Lexeme.read?_word hword hrest hnames
  rw [hk] at hread
  have hgives := Gives.of_read? (settled_word hword) hread
  rwa [ofList_toList] at hgives

theorem gives_name (hs : Lexeme.isWord s) (hk : Keyword.ofText? context.keywords s = none)
    (hrest : Lexeme.Ends rest) (hnames : context.names) : Gives context (s.toList ++ rest) .name s rest := by
  have hread := Lexeme.read?_word hs hrest hnames
  rw [hk] at hread
  have hgives := Gives.of_read? (settled_word hs) hread
  rwa [ofList_toList] at hgives

/-- At the beginning of a program the first keyword need not end where the word ends. -/
theorem gives_start (rest : List Char) :
    Gives .start (Keyword.openqasm.text.toList ++ rest) (.keyword .openqasm) Keyword.openqasm.text rest := by
  have hread : Lexeme.read? .start (Keyword.openqasm.text.toList ++ rest) =
      some ⟨.keyword .openqasm, Keyword.openqasm.text.toList, rest⟩ := by
    have hafter := Lexeme.afterSpelling?_append_self Keyword.openqasm.text.toList rest
    obtain ⟨c, cs, hl, hc, -⟩ := Lexeme.isWord_iff.mp (Lexeme.isWord_text .openqasm)
    rw [hl, cons_append] at hafter ⊢
    rw [Lexeme.read?, if_pos hc, Lexeme.word]
    simp [Context.start, hl, hafter]
  have hgives := Gives.of_read? (settled_word (Lexeme.isWord_text .openqasm)) hread
  rwa [ofList_toList] at hgives

theorem gives_integer (hs : Lexeme.isInteger s) (hrest : Lexeme.Ends rest) (hintegers : context.integers) :
    Gives context (s.toList ++ rest) .integer s rest := by
  have hsettled : Settled (s.toList ++ rest) := by
    obtain ⟨hne, hall⟩ := Lexeme.isInteger_iff.mp hs
    obtain ⟨c, cs, hl⟩ := exists_cons_of_ne_nil hne
    rw [hl, cons_append]
    exact settled_of_class (hall c (by rw [hl]; exact mem_cons_self)) (by decide)
  have hgives := Gives.of_read? hsettled (Lexeme.read?_integer hs hrest hintegers)
  rwa [ofList_toList] at hgives

theorem gives_number (hs : Lexeme.isNumber s) (hrest : Lexeme.Ends rest) (hintegers : context.integers = false) :
    Gives context (s.toList ++ rest) .number s rest := by
  have hsettled : Settled (s.toList ++ rest) := by
    obtain ⟨c, cs, hl, hc⟩ := Lexeme.isNumber_cons hs
    rw [hl, cons_append]
    exact settled_of_class (p := fun d => d.isDigit || decide (d = '.')) hc (by decide)
  have hgives := Gives.of_read? hsettled (Lexeme.read?_number hs hrest hintegers)
  rwa [ofList_toList] at hgives

theorem gives_string (hs : Lexeme.isQuotable s) :
    Gives context ('"' :: s.toList ++ '"' :: rest) .string (ofList ('"' :: s.toList ++ ['"'])) rest :=
  Gives.of_read? (settled_of_ne (by decide) (by decide)) (Lexeme.read?_string hs)

variable {symbol : Symbol}

theorem gives_symbol (hc : Symbol.ofChar? c = some symbol) (hminus : c = '-' → context.minus)
    (hslash : c = '/' → rest.head? ≠ some '/') :
    Gives context (c :: rest) (.symbol symbol) (ofList [c]) rest := by
  have hspace : isSpace c = false := by
    by_contra hspace
    rw [not_eq_false] at hspace
    simp only [isSpace, or_eq_true, decide_eq_true_eq] at hspace
    rcases hspace with (((rfl | rfl) | rfl) | rfl) | rfl <;> exact absurd hc (by simp [Symbol.ofChar?])
  have hsettled : Settled (c :: rest) := ⟨hspace, hslash⟩
  exact Gives.of_read? hsettled (Lexeme.read?_symbol hc hminus)

/-- A symbol that begins nothing longer. -/
theorem gives_mark (hc : Symbol.ofChar? c = some symbol) (hne : c ≠ '-' ∧ c ≠ '/' := by decide) :
    Gives context (c :: rest) (.symbol symbol) (ofList [c]) rest :=
  gives_symbol hc (fun h => absurd h hne.1) (fun h => absurd h hne.2)

theorem gives_equals : Gives context ('=' :: '=' :: rest) (.symbol .equals) "==" rest :=
  Gives.of_read? (settled_of_ne (by decide) (by decide)) Lexeme.read?_equals

theorem gives_arrow (hminus : context.minus = false) : Gives context ('-' :: '>' :: rest) (.symbol .arrow) "->" rest :=
  Gives.of_read? (settled_of_ne (by decide) (by decide)) (Lexeme.read?_arrow hminus)

theorem gives_finish : Gives context [] .finish "" [] := by
  intro c hc
  have hskip : c.skip = c := by
    unfold skip
    rw [hc, skipSpace, ← hc]
  unfold next
  dsimp only
  rw [hskip, hc]
  exact ⟨_, _, rfl, hc⟩

/-- Every token but the end of the text takes something from it. -/
theorem next_length_lt {c c' : Cursor} {token : Token} (h : c.next context = .ok (token, c'))
    (hfinish : token.terminal ≠ .finish) : c'.rest.length < c.rest.length := by
  have hskip : c.skip.rest.length ≤ c.rest.length := skipSpace_length_le false c.line c.col c.rest
  unfold next at h
  dsimp only at h
  split at h
  · injection h with h
    injection h with htoken
    rw [← htoken] at hfinish
    exact absurd rfl hfinish
  · split at h
    · exact absurd h (by simp [failAt])
    · next l hread =>
      injection h with h
      injection h with htoken hc'
      obtain ⟨hne, happend⟩ := Lexeme.begins_of_read? hread
      have hlength := congrArg List.length happend
      rw [length_append] at hlength
      have hpos := length_pos_iff.mpr hne
      rw [← hc']
      show l.rest.length < c.rest.length
      omega

/-- A token is spelled as its kind asks. -/
theorem next_spelledAs (hnames : context.names) {c c' : Cursor} {token : Token}
    (h : c.next context = .ok (token, c')) : Lexeme.SpelledAs context token.text token.terminal := by
  unfold next at h
  dsimp only at h
  split at h
  · injection h with h
    injection h with htoken
    rw [← htoken]
    trivial
  · split at h
    · exact absurd h (by simp [failAt])
    · next l hread =>
      injection h with h
      injection h with htoken
      rw [← htoken]
      exact Lexeme.spelledAs_of_read? hnames hread

end Cursor

end QasmCircuit
