import XamlAssist.Json.Printer
import XamlAssist.Proofs.Text.Decimal

/-!
# Reading what was printed

A printed value is read back as the value it was. Between the two stand the tokens of the value: the
text is cut into them, and the machine that builds values takes them one after the other. Main
statement: `Value.ofText?_printed`.
-/

namespace XamlAssist.Json

open Text

/-- A value in the form in which descriptions are printed: strings are written in the shortest way
that there is, and numbers are whole. -/
inductive Value.IsPlain : Value → Prop
  | null : IsPlain .null
  | bool (value : Bool) : IsPlain (.bool value)
  | number {value : Number} (whole : value.whole = true) : IsPlain (.number value)
  | string (text : List Char) : IsPlain (.string (writeText text))
  | array {items : List Value} (items_plain : ∀ item ∈ items, IsPlain item) :
      IsPlain (.array items)
  | object {fields : List (List Written × Value)}
      (names_plain : ∀ field ∈ fields, ∃ text, field.1 = writeText text)
      (values_plain : ∀ field ∈ fields, IsPlain field.2) : IsPlain (.object fields)

mutual

/-- The tokens of a value. -/
def Value.tokens : Value → List Token
  | .null => [.null]
  | .bool value => [.bool value]
  | .number value => [.number value]
  | .string value => [.string value]
  | .array [] => [.openBracket, .closeBracket]
  | .array (item :: items) => .openBracket :: item.tokens ++ itemTokens items ++ [.closeBracket]
  | .object [] => [.openBrace, .closeBrace]
  | .object ((name, value) :: fields) =>
      [.openBrace, .string name, .colon] ++ value.tokens ++ fieldTokens fields ++ [.closeBrace]

/-- The tokens of further items. -/
def itemTokens : List Value → List Token
  | [] => []
  | item :: items => .comma :: item.tokens ++ itemTokens items

/-- The tokens of further members. -/
def fieldTokens : List (List Written × Value) → List Token
  | [] => []
  | (name, value) :: fields => [.comma, .string name, .colon] ++ value.tokens ++ fieldTokens fields

end

/-! ### Strings -/

private theorem hexDigit?_hexDigit : ∀ n < 16, hexDigit? (hexDigit n) = some n := by decide

private theorem hexUnit?_hexDigit {n : Nat} (h : n < 0x10000) :
    hexUnit? (hexDigit (n / 0x1000)) (hexDigit (n / 0x100 % 16)) (hexDigit (n / 0x10 % 16))
      (hexDigit (n % 16)) = some n := by
  rw [hexUnit?, hexDigit?_hexDigit _ (by omega), hexDigit?_hexDigit _ (by omega),
    hexDigit?_hexDigit _ (by omega), hexDigit?_hexDigit _ (by omega)]
  simp only [Option.bind_eq_bind, Option.bind_some, Option.some.injEq]
  omega

private theorem readString_unit {n : Nat} (h : n < 0x10000) (rest : List Char) :
    readString ((Written.unit n).print ++ rest) =
      (readString rest).map fun read => (.unit n :: read.1, read.2) := by
  simp only [Written.print, List.cons_append, List.nil_append, readString, hexUnit?_hexDigit h]
  cases readString rest <;> rfl

private theorem readString_escaped {c : Char} (hletter : escapeLetter c ≠ 'u')
    (h : escape? (escapeLetter c) = some c) (rest : List Char) :
    readString ((Written.escaped c).print ++ rest) =
      (readString rest).map fun read => (.escaped c :: read.1, read.2) := by
  simp only [Written.print, List.cons_append, List.nil_append]
  rw [readString.eq_4 _ _ fun _ _ _ _ _ hu => absurd hu hletter, h]
  cases readString rest <;> rfl

private theorem readString_plain {c : Char} (hhigh : 0x20 ≤ c.toNat) (hquote : c ≠ '"')
    (hslash : c ≠ '\\') (rest : List Char) :
    readString ((Written.plain c).print ++ rest) =
      (readString rest).map fun read => (.plain c :: read.1, read.2) := by
  simp only [Written.print, List.cons_append, List.nil_append]
  rw [readString.eq_5 _ _ hquote (fun _ _ _ _ _ h => absurd h hslash)
    fun _ _ h => absurd h hslash, if_neg (Nat.not_lt.mpr hhigh)]
  cases readString rest <;> rfl

/-- The characters that are written behind a backslash. -/
def escapedChars : List Char := ['"', '\\', '\n', '\r', '\t', '\x08', '\x0c']

private theorem escapeLetter_of_mem {c : Char} (h : c ∈ escapedChars) :
    escapeLetter c ≠ 'u' ∧ escape? (escapeLetter c) = some c := by
  have hall : escapedChars.all (fun c =>
      escapeLetter c ≠ 'u' && escape? (escapeLetter c) = some c) = true := by decide
  simpa using List.all_eq_true.mp hall c h

private theorem writeChar_cases (c : Char) :
    (c ∈ escapedChars ∧ writeChar c = .escaped c) ∨
      (c.toNat < 0x20 ∧ writeChar c = .unit c.toNat) ∨
      (0x20 ≤ c.toNat ∧ c ≠ '"' ∧ c ≠ '\\' ∧ writeChar c = .plain c) := by
  unfold writeChar
  split
  · next h => exact .inl ⟨by simpa [escapedChars, or_assoc] using h, rfl⟩
  · next h =>
      split
      · next hlow => exact .inr (.inl ⟨hlow, rfl⟩)
      · next hhigh =>
          simp only [Bool.or_eq_true, decide_eq_true_eq, not_or] at h
          obtain ⟨⟨⟨⟨⟨⟨hquote, hslash⟩, -⟩, -⟩, -⟩, -⟩, -⟩ := h
          exact .inr (.inr ⟨by omega, hquote, hslash, rfl⟩)

private theorem readString_writeChar (c : Char) (rest : List Char) :
    readString ((writeChar c).print ++ rest) =
      (readString rest).map fun read => (writeChar c :: read.1, read.2) := by
  obtain ⟨hmem, hwrite⟩ | ⟨hlow, hwrite⟩ | ⟨hhigh, hquote, hslash, hwrite⟩ := writeChar_cases c
  · rw [hwrite]
    exact readString_escaped (escapeLetter_of_mem hmem).1 (escapeLetter_of_mem hmem).2 rest
  · rw [hwrite]
    exact readString_unit (by omega) rest
  · rw [hwrite]
    exact readString_plain hhigh hquote hslash rest

private theorem readString_writeText (text rest : List Char) :
    readString ((writeText text).flatMap Written.print ++ '"' :: rest) =
      some (writeText text, rest) := by
  induction text with
  | nil => rw [writeText, List.map_nil, List.flatMap_nil, List.nil_append, readString]
  | cons c text ih =>
      rw [writeText, List.map_cons, List.flatMap_cons, List.append_assoc, readString_writeChar,
        ← writeText, ih]
      rfl

private theorem textOf?_unit {n : Nat} (h : n < 0xD800) (rest : List Written) :
    textOf? (.unit n :: rest) = (textOf? rest).map (Char.ofNat n :: ·) := by
  have hlow : ¬0xD800 ≤ n := by omega
  have hother : ¬0xDC00 ≤ n := by omega
  rcases rest with _ | ⟨⟨c⟩ | ⟨c⟩ | ⟨low⟩, rest⟩ <;> simp [textOf?, hlow, hother]

/-- A text is written so that it can be read back. -/
@[simp]
theorem textOf?_writeText (text : List Char) : textOf? (writeText text) = some text := by
  induction text with
  | nil => rfl
  | cons c text ih =>
      rw [writeText, List.map_cons, ← writeText]
      obtain ⟨-, hwrite⟩ | ⟨hlow, hwrite⟩ | ⟨-, -, -, hwrite⟩ := writeChar_cases c
      · rw [hwrite, textOf?, ih, Option.map_some]
      · rw [hwrite, textOf?_unit (by omega), ih, Option.map_some, Char.ofNat_toNat]
      · rw [hwrite, textOf?, ih, Option.map_some]

/-! ### Numbers -/

/-- A number ends where such a text starts. -/
def EndsNumber (rest : List Char) : Prop :=
  ∀ c ∈ rest.head?, c.isDigit = false ∧ c ≠ '.' ∧ c ≠ 'e' ∧ c ≠ 'E'

private theorem readDigits_append {digits rest : List Char}
    (hdigits : digits.all Char.isDigit = true) (hne : digits ≠ []) (hrest : EndsNumber rest) :
    readDigits (digits ++ rest) = some (digits, rest) := by
  have hall : ∀ c ∈ digits, c.isDigit = true := List.all_eq_true.mp hdigits
  have hstop : rest.takeWhile Char.isDigit = [] ∧ rest.dropWhile Char.isDigit = rest := by
    cases rest with
    | nil => exact ⟨rfl, rfl⟩
    | cons c rest => simp [(hrest c rfl).1]
  rw [readDigits, List.takeWhile_append_of_pos hall, List.dropWhile_append_of_pos hall, hstop.1,
    hstop.2, List.append_nil]
  obtain ⟨c, cs, rfl⟩ := List.exists_cons_of_ne_nil hne
  rfl

private theorem readInteger_decimal (n : Nat) {rest : List Char} (hrest : EndsNumber rest) :
    readInteger (decimal n ++ rest) = some (n, rest) := by
  by_cases hn : n = 0
  · subst hn
    rw [decimal]
    rfl
  · have hhead := head?_decimal_ne_zero (Nat.pos_of_ne_zero hn)
    obtain ⟨c, cs, hcs⟩ := List.exists_cons_of_ne_nil (decimal_ne_nil n)
    have hc : c ≠ '0' := by simpa [hcs] using hhead
    have hread := readDigits_append (all_isDigit_decimal n) (decimal_ne_nil n) hrest
    rw [hcs, List.cons_append] at hread ⊢
    rw [readInteger, hread, ← hcs]
    · simp
    · exact fun _ h => hc (List.cons.inj h).1

private theorem readFraction_of_endsNumber {rest : List Char} (h : EndsNumber rest) :
    readFraction rest = some (false, rest) := by
  cases rest with
  | nil => rfl
  | cons c rest =>
      rw [readFraction]
      exact fun _ hc => (h c rfl).2.1 (List.cons.inj hc).1

private theorem readExponent_of_endsNumber {rest : List Char} (h : EndsNumber rest) :
    readExponent rest = some (false, rest) := by
  cases rest with
  | nil => rfl
  | cons c rest =>
      obtain ⟨-, -, hlower, hupper⟩ := h c rfl
      simp [readExponent, hlower, hupper]

private theorem head?_decimal_isDigit (n : Nat) : ∀ c ∈ (decimal n).head?, c.isDigit = true := by
  intro c hc
  exact List.all_eq_true.mp (all_isDigit_decimal n) c (List.mem_of_head? hc)

private theorem readNumber_print {value : Number} (hwhole : value.whole = true) {rest : List Char}
    (hrest : EndsNumber rest) : readNumber (value.print ++ rest) = some (value, rest) := by
  obtain ⟨negative, n, whole⟩ := value
  obtain rfl : whole = true := hwhole
  have hread := readInteger_decimal n hrest
  cases negative with
  | true =>
      simp [readNumber, Number.print, hread, readFraction_of_endsNumber hrest,
        readExponent_of_endsNumber hrest]
  | false =>
      obtain ⟨c, cs, hcs⟩ := List.exists_cons_of_ne_nil (decimal_ne_nil n)
      have hc : c ≠ '-' := by
        have hdigit := head?_decimal_isDigit n c (by rw [hcs]; rfl)
        rintro rfl
        simp at hdigit
      rw [hcs, List.cons_append] at hread
      simp [readNumber, Number.print, hcs, hc, hread, readFraction_of_endsNumber hrest,
        readExponent_of_endsNumber hrest]

/-! ### Tokens -/

private theorem readTokens_blank {c : Char} (h : isMarkupBlank c = true) (done : List Token)
    (rest : List Char) : readTokens done (c :: rest) = readTokens done rest := by
  rw [readTokens, if_pos h]

private theorem readTokens_token {c : Char} (h : isMarkupBlank c = false) {token : Token}
    {text tail : List Char} (hread : readToken (c :: text) = some (token, tail))
    (done : List Token) : readTokens done (c :: text) = readTokens (token :: done) tail := by
  rw [readTokens, if_neg (by simp [h])]
  split
  · next hnone => simp [hread] at hnone
  · next hsome =>
      obtain ⟨rfl, rfl⟩ := Prod.mk.inj (Option.some.inj (hread.symm.trans hsome))
      rfl

@[simp]
theorem readTokens_newLine (level : Nat) (done : List Token) (rest : List Char) :
    readTokens done (newLine level ++ rest) = readTokens done rest := by
  have hblanks (count : Nat) :
      readTokens done (List.replicate count ' ' ++ rest) = readTokens done rest := by
    induction count with
    | zero => rfl
    | succ count ih =>
        rw [List.replicate_succ, List.cons_append, readTokens_blank (by decide), ih]
  rw [newLine, List.cons_append, readTokens_blank (by decide), hblanks]

@[simp]
theorem readTokens_printString (text : List Char) (done : List Token) (rest : List Char) :
    readTokens done (printString (writeText text) ++ rest) =
      readTokens (.string (writeText text) :: done) rest := by
  have hread := readString_writeText text rest
  have hsplit : printString (writeText text) ++ rest =
      '"' :: ((writeText text).flatMap Written.print ++ '"' :: rest) := by simp [printString]
  rw [hsplit]
  refine readTokens_token (by decide) ?_ done
  rw [readToken, hread, Option.map_some]

private theorem readToken_digit {c : Char} (h : c.isDigit = true ∨ c = '-') (rest : List Char) :
    readToken (c :: rest) = (readNumber (c :: rest)).map fun read => (.number read.1, read.2) := by
  rw [readToken]
  all_goals
    rintro _ hc
    obtain ⟨rfl, rfl⟩ := List.cons.inj hc
    simp at h

private theorem exists_print_eq_cons (value : Number) :
    ∃ c cs, value.print = c :: cs ∧ (c.isDigit = true ∨ c = '-') := by
  obtain ⟨c, cs, hcs⟩ := List.exists_cons_of_ne_nil (decimal_ne_nil value.integer)
  cases hnegative : value.negative with
  | true => exact ⟨'-', _, by simp [Number.print, hnegative]; rfl, .inr rfl⟩
  | false =>
      refine ⟨c, _, by simp [Number.print, hnegative, hcs]; rfl, .inl ?_⟩
      exact head?_decimal_isDigit value.integer c (by rw [hcs]; rfl)

private theorem readTokens_number {value : Number} (hwhole : value.whole = true) {rest : List Char}
    (hrest : EndsNumber rest) (done : List Token) :
    readTokens done (value.print ++ rest) = readTokens (.number value :: done) rest := by
  have hread := readNumber_print hwhole hrest
  obtain ⟨c, cs, hcs, hc⟩ := exists_print_eq_cons value
  have hblank : isMarkupBlank c = false := by
    rw [← Bool.not_eq_true]
    intro hblank
    simp only [isMarkupBlank, Bool.or_eq_true, beq_iff_eq] at hblank
    rcases hblank with ((rfl | rfl) | rfl) | rfl <;> simp at hc
  rw [hcs, List.cons_append] at hread ⊢
  refine readTokens_token hblank ?_ done
  rw [readToken_digit hc, hread, Option.map_some]

private theorem readTokens_mark {c : Char} (token : Token)
    (h : (c, token) ∈ [('\x7b', .openBrace), ('\x7d', .closeBrace), ('[', .openBracket),
      (']', .closeBracket), (':', .colon), (',', .comma)]) (done : List Token) (rest : List Char) :
    readTokens done (c :: rest) = readTokens (token :: done) rest := by
  simp only [List.mem_cons, Prod.mk.injEq, List.not_mem_nil, or_false] at h
  rcases h with ⟨rfl, rfl⟩ | ⟨rfl, rfl⟩ | ⟨rfl, rfl⟩ | ⟨rfl, rfl⟩ | ⟨rfl, rfl⟩ | ⟨rfl, rfl⟩ <;>
    exact readTokens_token (by decide) (by rw [readToken]) done

/-! ### Values -/

/-- The text of a value is cut into its tokens, whatever stands before it and behind it. -/
def Value.IsCut (value : Value) : Prop :=
  ∀ (level : Nat) (done : List Token) (rest : List Char), EndsNumber rest →
    readTokens done (value.print level ++ rest) = readTokens (value.tokens.reverse ++ done) rest

private theorem endsNumber_of_cons {c : Char} (h : c = ',' ∨ c = '\n') (rest : List Char) :
    EndsNumber (c :: rest) := by
  intro d hd
  obtain rfl : c = d := Option.some.inj hd
  rcases h with rfl | rfl <;> decide

private theorem endsNumber_newLine (level : Nat) (rest : List Char) :
    EndsNumber (newLine level ++ rest) :=
  endsNumber_of_cons (.inr rfl) _

private theorem endsNumber_printItems (level : Nat) (items : List Value) {rest : List Char}
    (h : EndsNumber rest) : EndsNumber (printItems level items ++ rest) := by
  cases items with
  | nil => simpa [printItems] using h
  | cons item items => simpa [printItems] using endsNumber_of_cons (.inl rfl) _

private theorem endsNumber_printFields (level : Nat) (fields : List (List Written × Value))
    {rest : List Char} (h : EndsNumber rest) : EndsNumber (printFields level fields ++ rest) := by
  cases fields with
  | nil => simpa [printFields] using h
  | cons field fields => simpa [printFields] using endsNumber_of_cons (.inl rfl) _

private theorem readTokens_printItems {items : List Value} (h : ∀ item ∈ items, item.IsCut)
    (level : Nat) (done : List Token) {rest : List Char} (hrest : EndsNumber rest) :
    readTokens done (printItems level items ++ rest) =
      readTokens ((itemTokens items).reverse ++ done) rest := by
  induction items generalizing done with
  | nil => simp [printItems, itemTokens]
  | cons item items ih =>
      have hitem := h item List.mem_cons_self level (.comma :: done)
        (printItems level items ++ rest) (endsNumber_printItems level items hrest)
      have hitems := ih (fun other hother => h other (List.mem_cons_of_mem item hother))
        (item.tokens.reverse ++ .comma :: done)
      simp only [printItems, itemTokens, List.cons_append, List.append_assoc]
      rw [readTokens_mark .comma (by simp), readTokens_newLine, hitem, hitems]
      simp

private theorem readTokens_printFields {fields : List (List Written × Value)}
    (hnames : ∀ field ∈ fields, ∃ text, field.1 = writeText text)
    (h : ∀ field ∈ fields, field.2.IsCut) (level : Nat) (done : List Token) {rest : List Char}
    (hrest : EndsNumber rest) :
    readTokens done (printFields level fields ++ rest) =
      readTokens ((fieldTokens fields).reverse ++ done) rest := by
  induction fields generalizing done with
  | nil => simp [printFields, fieldTokens]
  | cons field fields ih =>
      obtain ⟨name, value⟩ := field
      obtain ⟨text, rfl⟩ := hnames _ List.mem_cons_self
      have hvalue := h _ List.mem_cons_self level
        (.colon :: .string (writeText text) :: .comma :: done) (printFields level fields ++ rest)
        (endsNumber_printFields level fields hrest)
      have hfields := ih (fun other hother => hnames other (List.mem_cons_of_mem _ hother))
        (fun other hother => h other (List.mem_cons_of_mem _ hother))
        (value.tokens.reverse ++ .colon :: .string (writeText text) :: .comma :: done)
      simp only [printFields, fieldTokens, List.cons_append, List.append_assoc, List.nil_append]
      rw [readTokens_mark .comma (by simp), readTokens_newLine, readTokens_printString,
        readTokens_mark .colon (by simp), readTokens_blank (by decide), hvalue, hfields]
      simp

private theorem Value.IsPlain.isCut {value : Value} (h : value.IsPlain) : value.IsCut := by
  induction h with
  | null =>
      intro level done rest _
      exact readTokens_token (by decide) (by rw [readToken]; rfl) done
  | bool value =>
      intro level done rest _
      cases value <;> exact readTokens_token (by decide) (by rw [readToken]; rfl) done
  | number hwhole =>
      intro level done rest hrest
      exact readTokens_number hwhole hrest done
  | string text =>
      intro level done rest _
      exact readTokens_printString text done rest
  | @array items _ ih =>
      intro level done rest _
      cases items with
      | nil =>
          simp only [Value.print, Value.tokens, List.cons_append, List.nil_append]
          rw [readTokens_mark .openBracket (by simp),
            readTokens_mark .closeBracket (by simp)]
          rfl
      | cons item items =>
          have hend := endsNumber_newLine level (']' :: rest)
          have hitem := ih item List.mem_cons_self (level + 1) (.openBracket :: done) _
            (endsNumber_printItems (level + 1) items hend)
          have hitems := readTokens_printItems
            (fun other hother => ih other (List.mem_cons_of_mem item hother)) (level + 1)
            (item.tokens.reverse ++ .openBracket :: done) hend
          simp only [Value.print, Value.tokens, List.cons_append, List.append_assoc,
            List.nil_append]
          rw [readTokens_mark .openBracket (by simp), readTokens_newLine, hitem, hitems,
            readTokens_newLine, readTokens_mark .closeBracket (by simp)]
          simp
  | @object fields hnames _ ih =>
      intro level done rest _
      cases fields with
      | nil =>
          simp only [Value.print, Value.tokens, List.cons_append, List.nil_append]
          rw [readTokens_mark .openBrace (by simp),
            readTokens_mark .closeBrace (by simp)]
          rfl
      | cons field fields =>
          obtain ⟨name, value⟩ := field
          obtain ⟨text, rfl⟩ := hnames _ List.mem_cons_self
          have hend := endsNumber_newLine level ('\x7d' :: rest)
          have hvalue := ih _ List.mem_cons_self (level + 1)
            (.colon :: .string (writeText text) :: .openBrace :: done) _
            (endsNumber_printFields (level + 1) fields hend)
          have hfields := readTokens_printFields
            (fun other hother => hnames other (List.mem_cons_of_mem _ hother))
            (fun other hother => ih other (List.mem_cons_of_mem _ hother)) (level + 1)
            (value.tokens.reverse ++ .colon :: .string (writeText text) :: .openBrace :: done) hend
          simp only [Value.print, Value.tokens, List.cons_append, List.append_assoc,
            List.nil_append]
          rw [readTokens_mark .openBrace (by simp), readTokens_newLine,
            readTokens_printString, readTokens_mark .colon (by simp),
            readTokens_blank (by decide), hvalue, hfields, readTokens_newLine,
            readTokens_mark .closeBrace (by simp)]
          simp

/-! ### Building values -/

private theorem exists_tokens_eq_cons (value : Value) :
    ∃ token tokens, value.tokens = token :: tokens ∧ token ≠ .closeBracket := by
  cases value with
  | null => exact ⟨_, _, rfl, nofun⟩
  | bool value => exact ⟨_, _, rfl, nofun⟩
  | number value => exact ⟨_, _, rfl, nofun⟩
  | string value => exact ⟨_, _, rfl, nofun⟩
  | array items => cases items <;> exact ⟨_, _, rfl, nofun⟩
  | object fields => cases fields <;> exact ⟨_, _, rfl, nofun⟩

private theorem foldlM_firstItem (value : Value) (outer : List Frame) :
    value.tokens.foldlM State.step (.firstItem outer) =
      value.tokens.foldlM State.step (.needsValue (.array [] :: outer)) := by
  obtain ⟨token, tokens, htokens, hne⟩ := exists_tokens_eq_cons value
  rw [htokens, List.foldlM_cons, List.foldlM_cons, State.step, State.step]
  exact hne

mutual

/-- The tokens of a value build the value and hand it to the container around it. -/
theorem foldlM_tokens (value : Value) (outer : List Frame) :
    value.tokens.foldlM State.step (.needsValue outer) = some (.deliver value outer) := by
  cases value with
  | null => rfl
  | bool value => rfl
  | number value => rfl
  | string value => rfl
  | array items =>
      cases items with
      | nil => rfl
      | cons item items =>
          have hitem := foldlM_tokens item (.array [] :: outer)
          have hitems := foldlM_itemTokens items [item] outer
          simp only [Value.tokens, List.cons_append, List.append_assoc, List.foldlM_cons,
            State.step, State.begin, Option.bind_eq_bind, Option.bind_some]
          rw [List.foldlM_append, foldlM_firstItem, hitem]
          exact hitems
  | object fields =>
      cases fields with
      | nil => rfl
      | cons field fields =>
          obtain ⟨name, value⟩ := field
          have hvalue := foldlM_tokens value (.member [] name :: outer)
          have hfields := foldlM_fieldTokens fields [(name, value)] outer
          simp only [Value.tokens, List.cons_append, List.nil_append, List.append_assoc,
            List.foldlM_cons, State.step, State.begin, Option.bind_eq_bind, Option.bind_some]
          rw [List.foldlM_append, hvalue]
          exact hfields

private theorem foldlM_itemTokens (items done : List Value) (outer : List Frame) :
    (itemTokens items ++ [Token.closeBracket]).foldlM State.step (.afterItem done outer) =
      some (.deliver (.array (done.reverse ++ items)) outer) := by
  cases items with
  | nil => simp [itemTokens, State.step]
  | cons item items =>
      have hitem := foldlM_tokens item (.array done :: outer)
      have hitems := foldlM_itemTokens items (item :: done) outer
      simp only [itemTokens, List.cons_append, List.append_assoc, List.foldlM_cons, State.step,
        Option.bind_eq_bind, Option.bind_some]
      rw [List.foldlM_append, hitem]
      simpa [State.deliver] using hitems

private theorem foldlM_fieldTokens (fields done : List (List Written × Value))
    (outer : List Frame) :
    (fieldTokens fields ++ [Token.closeBrace]).foldlM State.step (.afterMember done outer) =
      some (.deliver (.object (done.reverse ++ fields)) outer) := by
  cases fields with
  | nil => simp [fieldTokens, State.step]
  | cons field fields =>
      obtain ⟨name, value⟩ := field
      have hvalue := foldlM_tokens value (.member done name :: outer)
      have hfields := foldlM_fieldTokens fields ((name, value) :: done) outer
      simp only [fieldTokens, List.cons_append, List.nil_append, List.append_assoc,
        List.foldlM_cons, State.step, Option.bind_eq_bind, Option.bind_some]
      rw [List.foldlM_append, hvalue]
      simpa [State.deliver] using hfields

end

/-! ### The whole text -/

private theorem ofTokens?_tokens (value : Value) : Value.ofTokens? value.tokens = some value := by
  rw [Value.ofTokens?, foldlM_tokens]
  rfl

private theorem tokens_toText {value : Value} (h : value.IsPlain) :
    tokens value.toText = some value.tokens := by
  have hcut := h.isCut 0 [] [] nofun
  rw [List.append_nil, List.append_nil] at hcut
  rw [tokens, Value.toText, hcut, readTokens, List.reverse_reverse]

/-- A value that is printed and read again is the same. -/
theorem Value.ofText?_printed {value : Value} (h : value.IsPlain) :
    Value.ofText? value.toText = some value := by
  rw [Value.ofText?, tokens_toText h]
  exact ofTokens?_tokens value

end XamlAssist.Json
