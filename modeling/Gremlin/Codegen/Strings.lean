import Gremlin.Codegen.Defaults
import Gremlin.Parser.Strings
import Gremlin.Text.CString

/-!
This module contains the bytes that a string literal denotes and what becomes of them when the literal is
copied into C.
-/

namespace Gremlin

open Text Parser Buffer

/-! What a literal denotes where it is declared. -/

/--
UTF-8, also of a surrogate that is not part of a pair.
-/
def encodePoint (n : Nat) : List UInt8 :=
  if n.isValidChar then String.utf8EncodeChar (Char.ofNat n)
  else [UInt8.ofNat (0xE0 + n / 4096), UInt8.ofNat (0x80 + n / 64 % 64), UInt8.ofNat (0x80 + n % 64)]

def encodeText (text : Span) : List UInt8 :=
  text.flatMap String.utf8EncodeChar

def simpleByte (c : Char) : UInt8 :=
  if c = 'a' then 0x07
  else if c = 'b' then 0x08
  else if c = 'f' then 0x0C
  else if c = 'n' then 0x0A
  else if c = 'r' then 0x0D
  else if c = 't' then 0x09
  else if c = 'v' then 0x0B
  else UInt8.ofNat c.toNat

namespace Item

/--
An octal escape has up to three digits and a hexadecimal one up to two. What comes behind them stands for
itself.
-/
def bytes : Item → List UInt8
  | plain c => String.utf8EncodeChar c
  | simple c => [simpleByte c]
  | octal digits => UInt8.ofNat (digitsValue 8 (digits.take 3)) :: encodeText (digits.drop 3)
  | hex _ digits => UInt8.ofNat (digitsValue 16 (digits.take 2)) :: encodeText (digits.drop 2)
  | unicode digits => encodePoint (digitsValue 16 digits)
  | unicodeLong digits => encodePoint (digitsValue 16 digits)

def codePoint : Item → Option Nat
  | unicode digits => some (digitsValue 16 digits)
  | unicodeLong digits => some (digitsValue 16 digits)
  | _ => none

end Item

/--
The code point of a high surrogate and a low one behind it.
-/
def joined (high low : Nat) : Option Nat :=
  if (0xD800 ≤ high && high < 0xDC00) && (0xDC00 ≤ low && low < 0xE000) then
    some (0x10000 + (high - 0xD800) * 0x400 + (low - 0xDC00))
  else
    none

/--
The bytes of the items in turn, pairs of surrogates apart.
-/
def itemsBytes : List Item → List UInt8
  | item :: .unicode digits :: items =>
    match item.codePoint.bind fun high => joined high (digitsValue 16 digits) with
    | some n => encodePoint n ++ itemsBytes items
    | none => item.bytes ++ itemsBytes (.unicode digits :: items)
  | item :: items => item.bytes ++ itemsBytes items
  | [] => []

/-! What it denotes in C. -/

namespace Item

def escaped : Item → Span
  | plain c => if c = '?' then ['\\', '?'] else [c]
  | item => item.text

/--
What the copy of an item denotes in C, if it denotes anything.
-/
def cBytes : Item → Option (List UInt8)
  | plain c => if c = '"' then none else some (String.utf8EncodeChar c)
  | simple c => some [simpleByte c]
  | octal digits =>
    (CString.byte (digitsValue 8 (digits.take 3))).map (· ++ encodeText (digits.drop 3))
  | hex x digits => if x = 'x' then CString.byte (digitsValue 16 digits) else none
  | unicode digits | unicodeLong digits =>
    let n := digitsValue 16 digits
    if CString.isReserved n then none else some (String.utf8EncodeChar (Char.ofNat n))

/--
An item that means the same in C: no double quote, no `\\X`, no hexadecimal escape of more than two digits,
no octal escape above 255 and no code point that C reserves.
-/
def IsPortable : Item → Prop
  | plain c => c ≠ '"'
  | simple _ => True
  | octal digits => digitsValue 8 (digits.take 3) ≤ 255
  | hex x digits => x = 'x' ∧ digits.length ≤ 2
  | unicode digits | unicodeLong digits => CString.isReserved (digitsValue 16 digits) = false

end Item

def itemsCBytes : List Item → Option (List UInt8)
  | [] => some []
  | item :: items => item.cBytes.bind fun bytes => (itemsCBytes items).map (bytes ++ ·)

theorem isOctal_eq (c : Char) : CString.isOctal c = isOctalDigit c :=
  rfl

theorem digit_eq {c : Char} (h : isHexDigit c = true) : CString.digit c = digitValue c := by
  simp only [isHexDigit, isDigit, Bool.or_eq_true, Bool.and_eq_true, decide_eq_true_eq] at h
  unfold CString.digit digitValue isDigit
  rcases h with (⟨h0, h9⟩ | ⟨ha, hf⟩) | ⟨hA, hF⟩
  . simp [h0, h9]
  . have h9 : ¬c ≤ '9' := fun h => absurd (Char.le_trans ha h) (by decide)
    have hF : ¬c ≤ 'F' := fun h => absurd (Char.le_trans ha h) (by decide)
    simp [h9, hF, ha]
  . have h9 : ¬c ≤ '9' := fun h => absurd (Char.le_trans hA h) (by decide)
    have ha : ¬ 'a' ≤ c := fun h => absurd (Char.le_trans h hF) (by decide)
    simp [h9, hF, ha]

theorem number_eq (base : Nat) {digits : Span} (h : ∀ d ∈ digits, isHexDigit d = true)
    : CString.number base digits = digitsValue base digits := by
  unfold CString.number digitsValue
  generalize 0 = n
  induction digits generalizing n with
  | nil => rfl
  | cons d digits ih =>
    rw [List.forall_mem_cons] at h
    rw [List.foldl_cons, List.foldl_cons, digit_eq h.1]
    exact ih h.2 _

theorem isHexDigit_of_octal {c : Char} (h : isOctalDigit c = true) : isHexDigit c = true := by
  simp only [isOctalDigit, isHexDigit, isDigit, Bool.or_eq_true, Bool.and_eq_true, decide_eq_true_eq] at h ⊢
  exact .inl (.inl ⟨h.1, Char.le_trans h.2 (by decide)⟩)

theorem simple_eq {c : Char} (h : isSimpleEscape c = true) : CString.simple c = some (simpleByte c) := by
  simp only [isSimpleEscape, List.contains_eq_mem, List.mem_cons, List.not_mem_nil, or_false,
    decide_eq_true_eq] at h
  rcases h with rfl | rfl | rfl | rfl | rfl | rfl | rfl | rfl | rfl | rfl | rfl <;> rfl

/-! The copy. -/

theorem escapeQuestions_append {text : Span} (h : ∀ c ∈ text, c ≠ '\\' ∧ c ≠ '?') (rest : Span)
    : escapeQuestions (text ++ rest) = text ++ escapeQuestions rest := by
  induction text with
  | nil => rfl
  | cons c text ih =>
    rw [List.forall_mem_cons] at h
    have hcons : escapeQuestions (c :: (text ++ rest)) = c :: escapeQuestions (text ++ rest) := by
      rw [escapeQuestions]
      . rintro d rest' rfl -
        exact h.1.1 rfl
      . exact h.1.2
    rw [List.cons_append, hcons, ih h.2, List.cons_append]

theorem hexDigit_kind {c : Char} (h : isHexDigit c = true) : c ≠ '\\' ∧ c ≠ '?' ∧ c ≠ '"' ∧ c ≠ '\n' := by
  refine ⟨?_, ?_, ?_, ?_⟩ <;> rintro rfl <;> simp [isHexDigit, isDigit] at h

theorem isLong_digits {digits : Span} (h : Item.IsLong digits)
    : digits.length = 8 ∧ ∀ d ∈ digits, isHexDigit d = true := by
  rcases h with ⟨hex, rfl, hlength, hhex⟩ | ⟨hex, rfl, hlength, hhex⟩
  . refine ⟨by simp [hlength], ?_⟩
    simp only [List.forall_mem_cons]
    exact ⟨rfl, rfl, rfl, hhex⟩
  . refine ⟨by simp [hlength], ?_⟩
    simp only [List.forall_mem_cons]
    exact ⟨rfl, rfl, rfl, rfl, hhex⟩

theorem escapeQuestions_item {close : Char} {next : Option Char} {item : Item} (h : item.Valid close next)
    (rest : Span) : escapeQuestions (item.text ++ rest) = item.escaped ++ escapeQuestions rest := by
  have hdigits (c : Char) {digits : Span} (hhex : ∀ d ∈ digits, isHexDigit d = true)
      : escapeQuestions ('\\' :: c :: (digits ++ rest)) = '\\' :: c :: (digits ++ escapeQuestions rest) := by
    have hplain : ∀ d ∈ digits, d ≠ '\\' ∧ d ≠ '?' := fun d hd =>
      ⟨(hexDigit_kind (hhex d hd)).1, (hexDigit_kind (hhex d hd)).2.1⟩
    rw [escapeQuestions, escapeQuestions_append hplain]
  cases item with
  | plain c =>
    by_cases hc : c = '?'
    . subst hc
      rfl
    . have := @escapeQuestions_append [c] (by simpa using ⟨h.2.1, hc⟩) rest
      simpa [Item.text, Item.escaped, hc] using this
  | simple c => rfl
  | octal digits =>
    obtain ⟨hne, hoctal, -⟩ := h
    cases digits with
    | nil => exact absurd rfl hne
    | cons d digits =>
      rw [List.forall_mem_cons] at hoctal
      exact hdigits d fun c hc => isHexDigit_of_octal (hoctal.2 c hc)
  | hex x digits => exact hdigits x h.2.2.1
  | unicode digits => exact hdigits 'u' h.2
  | unicodeLong digits => exact hdigits 'U' (isLong_digits h).2

theorem escapeQuestions_items {close : Char} {items : List Item} (h : IsQuoted close items)
    : escapeQuestions (itemsText items) = items.flatMap Item.escaped := by
  induction items with
  | nil => rfl
  | cons item items ih =>
    unfold itemsText at ih ⊢
    rw [List.flatMap_cons, List.flatMap_cons, escapeQuestions_item h.1, ih h.2]

/-! What the copy of an item denotes. -/

theorem content_text {text : Span} (h : ∀ c ∈ text, c ≠ '"' ∧ c ≠ '\n' ∧ c ≠ '\\') (rest : Span)
    : CString.content (text ++ rest) = (CString.content rest).map (encodeText text ++ ·) := by
  induction text with
  | nil =>
    simp [encodeText]
  | cons c text ih =>
    rw [List.forall_mem_cons] at h
    obtain ⟨hquote, hline, hescape⟩ := h.1
    rw [List.cons_append, CString.content_plain hquote hline hescape, ih h.2, Option.map_map]
    congr 1
    funext bytes
    simp [encodeText]

theorem take_octal {digits rest : Span} (h : ∀ d ∈ digits, isOctalDigit d = true)
    (hrest : ∀ c ∈ rest.head?, isOctalDigit c = false)
    : ((digits ++ rest).take 3).takeWhile CString.isOctal = digits.take 3 := by
  have hnone (n : Nat) : ∀ c ∈ (rest.take n).head?, isOctalDigit c = false := by
    intro c hc
    cases n with
    | zero => simp at hc
    | succ n =>
      apply hrest c
      cases rest with
      | nil => simp at hc
      | cons d rest => simpa using hc
  rw [List.take_append]
  exact (takeWhile_run (fun d hd => h d (List.mem_of_mem_take hd)) (hnone _)).1

theorem escape_octal {digits rest : Span} (hne : digits ≠ []) (h : ∀ d ∈ digits, isOctalDigit d = true)
    (hrest : ∀ c ∈ rest.head?, isOctalDigit c = false)
    : CString.escape (digits ++ rest)
        = (CString.byte (digitsValue 8 (digits.take 3))).map fun bytes => (bytes, digits.drop 3 ++ rest) := by
  have hvalue : CString.number 8 (digits.take 3) = digitsValue 8 (digits.take 3) :=
    number_eq 8 fun d hd => isHexDigit_of_octal (h d (List.mem_of_mem_take hd))
  have hdrop : (digits ++ rest).drop (digits.take 3).length = digits.drop 3 ++ rest := by
    rw [List.length_take]
    by_cases hlength : 3 ≤ digits.length
    . rw [Nat.min_eq_left hlength, List.drop_append_of_le_length hlength]
    . rw [Nat.min_eq_right (by omega), List.drop_left, List.drop_of_length_le (by omega), List.nil_append]
  have htake := take_octal h hrest
  cases digits with
  | nil => exact absurd rfl hne
  | cons d digits =>
    have hd := h d List.mem_cons_self
    obtain ⟨hx, -, hu, hU⟩ := octalDigit_kind hd
    rw [List.cons_append] at htake hdrop ⊢
    dsimp only [CString.escape]
    rw [if_neg hx, if_neg hu, if_neg hU, if_pos (by rwa [isOctal_eq]), htake, hvalue, hdrop]

theorem escape_hex {digits rest : Span} (hne : digits ≠ []) (h : ∀ d ∈ digits, isHexDigit d = true)
    (hrest : ∀ c ∈ rest.head?, isHexDigit c = false)
    : CString.escape ('x' :: (digits ++ rest))
        = (CString.byte (digitsValue 16 digits)).map fun bytes => (bytes, rest) := by
  have ⟨htake, hdrop⟩ := @takeWhile_run CString.isHex digits rest h hrest
  dsimp only [CString.escape]
  rw [if_pos rfl, htake, hdrop, number_eq 16 h, if_neg hne]

theorem universal_digits {digits : Span} (h : ∀ d ∈ digits, isHexDigit d = true) (rest : Span)
    : CString.universal digits.length (digits ++ rest)
        = if CString.isReserved (digitsValue 16 digits) then none
          else some (String.utf8EncodeChar (Char.ofNat (digitsValue 16 digits)), rest) := by
  dsimp only [CString.universal]
  rw [List.take_left, List.drop_left, number_eq 16 h]
  have hall : digits.all CString.isHex = true := List.all_eq_true.mpr h
  by_cases hreserved : CString.isReserved (digitsValue 16 digits) = true
  . simp [hreserved]
  . simp [hreserved, hall]

theorem content_bytes {bytes rest : Span} {denoted : List UInt8}
    (h : CString.escape (bytes ++ rest) = some (denoted, rest))
    : CString.content ('\\' :: (bytes ++ rest)) = (CString.content rest).map (denoted ++ ·) := by
  rw [CString.content_escape, h]
  rfl

theorem content_item {close : Char} {next : Option Char} {item : Item} (h : item.Valid close next) {rest : Span}
    (hrest : ∀ c ∈ rest.head?, c ∈ next ∨ c = '\\' ∨ c = '"') (hne : rest ≠ [])
    : CString.content (item.escaped ++ rest)
        = item.cBytes.bind fun bytes => (CString.content rest).map (bytes ++ ·) := by
  -- What comes behind the copy does not continue digits, as what came behind the item did not.
  have hends {test : Char → Bool} (hnext : ∀ c ∈ next, test c = false) (hescape : test '\\' = false)
      (hquote : test '"' = false) : ∀ c ∈ rest.head?, test c = false := by
    intro c hc
    rcases hrest c hc with hc | rfl | rfl
    . exact hnext c hc
    . exact hescape
    . exact hquote
  have hpoint (x : Char) {digits : Span} {count : Nat} (hcount : digits.length = count)
      (hhex : ∀ d ∈ digits, isHexDigit d = true)
      (hx : CString.escape (x :: (digits ++ rest)) = CString.universal count (digits ++ rest))
      : CString.content ('\\' :: x :: (digits ++ rest))
          = (if CString.isReserved (digitsValue 16 digits) then none
              else some (String.utf8EncodeChar (Char.ofNat (digitsValue 16 digits)))).bind
            fun bytes => (CString.content rest).map (bytes ++ ·) := by
    subst hcount
    rw [CString.content_escape, hx, universal_digits hhex]
    by_cases hreserved : CString.isReserved (digitsValue 16 digits) = true
    . rw [if_pos hreserved, if_pos hreserved]
      rfl
    . rw [if_neg hreserved, if_neg hreserved]
      rfl
  cases item with
  | plain c =>
    obtain ⟨-, hescape, hline⟩ := h
    by_cases hquote : c = '"'
    . subst hquote
      change CString.content ('"' :: rest) = _
      rw [CString.content_quote, if_neg hne]
      rfl
    . have hbytes : (Item.plain c).cBytes = some (String.utf8EncodeChar c) := by
        simp [Item.cBytes, hquote]
      rw [hbytes]
      by_cases hquestion : c = '?'
      . subst hquestion
        exact @content_bytes ['?'] rest _ rfl
      . have hescaped : (Item.plain c).escaped = [c] := by
          simp [Item.escaped, hquestion]
        rw [hescaped]
        exact CString.content_plain hquote hline hescape rest
  | simple c =>
    obtain ⟨hx, -, hoctal, hu, hU⟩ := simpleEscape_kind h
    have hrun : CString.escape ([c] ++ rest) = some ([simpleByte c], rest) := by
      simp [CString.escape, hx, hu, hU, isOctal_eq, hoctal, simple_eq h]
    exact content_bytes hrun
  | octal digits =>
    obtain ⟨hnil, hoctal, hnext⟩ := h
    have hplain : ∀ d ∈ digits.drop 3, d ≠ '"' ∧ d ≠ '\n' ∧ d ≠ '\\' := by
      intro d hd
      have := hexDigit_kind (isHexDigit_of_octal (hoctal d (List.mem_of_mem_drop hd)))
      exact ⟨this.2.2.1, this.2.2.2, this.1⟩
    change CString.content ('\\' :: (digits ++ rest)) = _
    rw [CString.content_escape, escape_octal hnil hoctal (hends hnext rfl rfl)]
    dsimp only [Item.cBytes]
    cases CString.byte (digitsValue 8 (digits.take 3)) with
    | none => rfl
    | some bytes =>
      simp only [Option.map_some, Option.bind_some, content_text hplain, Option.map_map]
      congr 1
      funext rest
      simp
  | hex x digits =>
    obtain ⟨hx, hnil, hhex, hnext⟩ := h
    change CString.content ('\\' :: x :: (digits ++ rest)) = _
    rw [CString.content_escape]
    rcases hx with rfl | rfl
    . rw [escape_hex hnil hhex (hends hnext rfl rfl)]
      simp only [Item.cBytes, if_true]
      cases CString.byte (digitsValue 16 digits) <;> rfl
    . rfl
  | unicode digits => exact hpoint 'u' h.1 h.2 rfl
  | unicodeLong digits => exact hpoint 'U' (isLong_digits h).1 (isLong_digits h).2 rfl

theorem head_escaped {close : Char} {items : List Item} (h : IsQuoted close items)
    : ∀ c ∈ (items.flatMap Item.escaped ++ ['"']).head?,
        c ∈ (itemsText items ++ [close]).head? ∨ c = '\\' ∨ c = '"' := by
  intro c hc
  cases items with
  | nil =>
    obtain rfl : '"' = c := by simpa using hc
    exact .inr (.inr rfl)
  | cons item items =>
    rw [List.flatMap_cons, List.append_assoc] at hc
    rw [itemsText, List.flatMap_cons, List.append_assoc]
    cases item with
    | plain d =>
      by_cases hd : d = '?'
      . obtain rfl : '\\' = c := by simpa [Item.escaped, hd] using hc
        exact .inr (.inl rfl)
      . exact .inl (by simpa [Item.escaped, Item.text, hd] using hc)
    | _ =>
      obtain rfl : '\\' = c := by simpa [Item.escaped, Item.text] using hc
      exact .inr (.inl rfl)

theorem content_items {close : Char} {items : List Item} (h : IsQuoted close items)
    : CString.content (items.flatMap Item.escaped ++ ['"']) = itemsCBytes items := by
  induction items with
  | nil => rfl
  | cons item items ih =>
    rw [List.flatMap_cons, List.append_assoc, content_item h.1 (head_escaped h.2) (by simp), ih h.2]
    rfl

/-! When both are the same. -/

theorem encodeText_length {text : Span} (h : ∀ c ∈ text, isHexDigit c = true)
    : (encodeText text).length = text.length := by
  induction text with
  | nil => rfl
  | cons c text ih =>
    rw [List.forall_mem_cons] at h
    have hle : c ≤ 'f' := by
      have := h.1
      simp only [isHexDigit, isDigit, Bool.or_eq_true, Bool.and_eq_true, decide_eq_true_eq] at this
      rcases this with (⟨-, h9⟩ | ⟨-, hf⟩) | ⟨-, hF⟩
      . exact Char.le_trans h9 (by decide)
      . exact hf
      . exact Char.le_trans hF (by decide)
    have hc : (String.utf8EncodeChar c).length = 1 := by
      rw [String.length_utf8EncodeChar, Char.utf8Size_eq_one_iff]
      exact UInt32.le_trans hle (by decide)
    unfold encodeText at ih ⊢
    rw [List.flatMap_cons, List.length_append, hc, ih h.2, List.length_cons, Nat.add_comm]

theorem encodePoint_of_allowed {n : Nat} (h : CString.isReserved n = false)
    : encodePoint n = String.utf8EncodeChar (Char.ofNat n) := by
  simp only [CString.isReserved, Bool.or_eq_false_iff, Bool.and_eq_false_iff, decide_eq_false_iff_not] at h
  apply if_pos
  unfold Nat.isValidChar
  omega

theorem digitValue_lt {c : Char} (h : isHexDigit c = true) : digitValue c < 16 := by
  simp only [isHexDigit, isDigit, Bool.or_eq_true, Bool.and_eq_true, decide_eq_true_eq] at h
  have hnat {d e : Char} (hle : d ≤ e) : d.toNat ≤ e.toNat := hle
  unfold digitValue isDigit
  rcases h with (⟨h0, h9⟩ | ⟨ha, hf⟩) | ⟨hA, hF⟩
  . have : c.toNat ≤ 57 := hnat h9
    simp only [h0, h9, decide_true, Bool.and_self, if_true]
    omega
  . have : c.toNat ≤ 102 := hnat hf
    have h9 : ¬c ≤ '9' := fun h => absurd (Char.le_trans ha h) (by decide)
    simp only [h9, ha, decide_false, Bool.and_false, Bool.false_eq_true, if_false, if_true]
    omega
  . have : c.toNat ≤ 70 := hnat hF
    have h9 : ¬c ≤ '9' := fun h => absurd (Char.le_trans hA h) (by decide)
    have ha : ¬ 'a' ≤ c := fun h => absurd (Char.le_trans h hF) (by decide)
    simp only [h9, ha, decide_false, Bool.and_false, Bool.false_eq_true, if_false]
    omega

theorem digitsValue_two {digits : Span} (h : ∀ d ∈ digits, isHexDigit d = true) (hlength : digits.length ≤ 2)
    : digitsValue 16 digits ≤ 255 := by
  rcases digits with _ | ⟨c, _ | ⟨d, _ | ⟨e, digits⟩⟩⟩
  . exact Nat.zero_le _
  . have := digitValue_lt (h c (by simp))
    simp only [digitsValue, List.foldl_cons, List.foldl_nil]
    omega
  . have := digitValue_lt (h c (by simp))
    have := digitValue_lt (h d (by simp))
    simp only [digitsValue, List.foldl_cons, List.foldl_nil]
    omega
  . simp at hlength

theorem cBytes_portable {close : Char} {next : Option Char} {item : Item} (h : item.Valid close next)
    (hportable : item.IsPortable) : item.cBytes = some item.bytes := by
  cases item with
  | plain c => exact if_neg hportable
  | simple c => rfl
  | octal digits =>
    have hvalue : digitsValue 8 (digits.take 3) ≤ 255 := hportable
    simp [Item.cBytes, Item.bytes, CString.byte, hvalue]
  | hex x digits =>
    obtain ⟨rfl, hlength⟩ := hportable
    have hvalue := digitsValue_two h.2.2.1 hlength
    simp only [Item.cBytes, Item.bytes, CString.byte, hvalue, if_true, List.take_of_length_le hlength,
      List.drop_of_length_le hlength]
    rfl
  | unicode digits | unicodeLong digits =>
    have hallowed : CString.isReserved (digitsValue 16 digits) = false := hportable
    simp [Item.cBytes, Item.bytes, hallowed, encodePoint_of_allowed hallowed]

/--
Digits that C takes for one escape are bytes of their own where the literal is declared.
-/
theorem cBytes_length {close : Char} {next : Option Char} {item : Item} (h : item.Valid close next)
    {bytes : List UInt8} (hbytes : item.cBytes = some bytes)
    : bytes.length ≤ item.bytes.length ∧ (bytes.length = item.bytes.length → item.IsPortable) := by
  have hportable (hportable : item.IsPortable)
      : bytes.length ≤ item.bytes.length ∧ (bytes.length = item.bytes.length → item.IsPortable) := by
    have heq := cBytes_portable h hportable
    rw [hbytes, Option.some.injEq] at heq
    rw [heq]
    exact ⟨le_refl _, fun _ => hportable⟩
  cases item with
  | plain c =>
    apply hportable
    rintro rfl
    simp [Item.cBytes] at hbytes
  | simple c => exact hportable trivial
  | octal digits =>
    apply hportable
    change digitsValue 8 (digits.take 3) ≤ 255
    by_contra hlarge
    simp [Item.cBytes, CString.byte, hlarge] at hbytes
  | hex x digits =>
    by_cases hx : x = 'x'
    . simp only [Item.cBytes, CString.byte, hx, if_true] at hbytes
      split at hbytes
      . obtain rfl := Option.some.inj hbytes
        have hlength := encodeText_length fun c hc => h.2.2.1 c (List.mem_of_mem_drop (i := 2) hc)
        rw [List.length_drop] at hlength
        simp only [Item.bytes, Item.IsPortable, List.length_cons, List.length_nil, hlength]
        exact ⟨by omega, fun heq => ⟨hx, by omega⟩⟩
      . simp at hbytes
    . simp [Item.cBytes, hx] at hbytes
  | unicode digits | unicodeLong digits =>
    apply hportable
    change CString.isReserved (digitsValue 16 digits) = false
    by_contra hreserved
    simp [Item.cBytes, hreserved] at hbytes

theorem itemsBytes_of_some {items : List Item} (h : ∀ item ∈ items, item.cBytes ≠ none)
    : itemsBytes items = items.flatMap Item.bytes := by
  fun_induction itemsBytes items with
  | case1 item digits items n hpair =>
    obtain ⟨high, hpoint, hjoined⟩ := Option.bind_eq_some_iff.mp hpair
    have hreserved : CString.isReserved high = true := by
      unfold joined at hjoined
      split at hjoined
      . next hsurrogates =>
        simp only [Bool.and_eq_true, decide_eq_true_eq] at hsurrogates
        simp only [CString.isReserved, Bool.or_eq_true, Bool.and_eq_true, decide_eq_true_eq]
        omega
      . simp at hjoined
    apply absurd _ (h item List.mem_cons_self)
    cases item with
    | unicode digits | unicodeLong digits =>
      obtain rfl : digitsValue 16 digits = high := Option.some.inj hpoint
      simp [Item.cBytes, hreserved]
    | plain | simple | octal | hex => simp [Item.codePoint] at hpoint
  | case2 item digits items _ ih | case3 item items _ ih =>
    rw [List.forall_mem_cons] at h
    rw [ih h.2]
    rfl
  | case4 => rfl

theorem itemsCBytes_some {items : List Item} {bytes : List UInt8} (h : itemsCBytes items = some bytes)
    : ∀ item ∈ items, item.cBytes ≠ none := by
  induction items generalizing bytes with
  | nil => simp
  | cons item items ih =>
    obtain ⟨first, hfirst, hrest⟩ := Option.bind_eq_some_iff.mp h
    obtain ⟨rest, htail, -⟩ := Option.map_eq_some_iff.mp hrest
    rw [List.forall_mem_cons]
    exact ⟨by simp [hfirst], ih htail⟩

theorem itemsCBytes_length {close : Char} {items : List Item} (hvalid : IsQuoted close items) {bytes : List UInt8}
    (h : itemsCBytes items = some bytes)
    : bytes.length ≤ (items.flatMap Item.bytes).length
        ∧ (bytes.length = (items.flatMap Item.bytes).length → ∀ item ∈ items, item.IsPortable) := by
  induction items generalizing bytes with
  | nil => simp_all [itemsCBytes]
  | cons item items ih =>
    obtain ⟨first, hfirst, hrest⟩ := Option.bind_eq_some_iff.mp h
    obtain ⟨rest, htail, rfl⟩ := Option.map_eq_some_iff.mp hrest
    have ⟨hlength, hportable⟩ := ih hvalid.2 htail
    have ⟨hlength', hportable'⟩ := cBytes_length hvalid.1 hfirst
    rw [List.flatMap_cons, List.length_append, List.length_append, List.forall_mem_cons]
    exact ⟨by omega, fun heq => ⟨hportable' (by omega), hportable (by omega)⟩⟩

theorem itemsCBytes_portable {close : Char} {items : List Item} (hvalid : IsQuoted close items)
    (h : ∀ item ∈ items, item.IsPortable) : itemsCBytes items = some (items.flatMap Item.bytes) := by
  induction items with
  | nil => rfl
  | cons item items ih =>
    rw [List.forall_mem_cons] at h
    rw [itemsCBytes, cBytes_portable hvalid.1 h.1, ih hvalid.2 h.2]
    rfl

/--
The items of a literal denote the same in C exactly if each of them means the same in C.
-/
theorem itemsCBytes_iff {close : Char} {items : List Item} (hvalid : IsQuoted close items)
    : itemsCBytes items = some (itemsBytes items) ↔ ∀ item ∈ items, item.IsPortable := by
  constructor
  . intro h
    have hbytes := itemsBytes_of_some (itemsCBytes_some h)
    rw [hbytes] at h
    exact (itemsCBytes_length hvalid h).2 rfl
  . intro h
    have hportable := itemsCBytes_portable hvalid h
    rw [hportable, itemsBytes_of_some (itemsCBytes_some hportable)]

/-! The copy as a literal. -/

theorem head_escapeQuestions (text : Span) : ∀ c ∈ (escapeQuestions text).head?, c ≠ '?' := by
  intro c hc
  unfold escapeQuestions at hc
  split at hc
  . obtain rfl : '\\' = c := by simpa using hc
    decide
  . obtain rfl : '\\' = c := by simpa using hc
    decide
  . next d rest _ hd =>
    obtain rfl : d = c := by simpa using hc
    exact hd
  . simp at hc

theorem escapeQuestions_chain (text : Span) : (escapeQuestions text).IsChain fun c d => ¬(c = '?' ∧ d = '?') := by
  have hcons (c : Char) {text : Span} (ih : (escapeQuestions text).IsChain fun c d => ¬(c = '?' ∧ d = '?'))
      : (c :: escapeQuestions text).IsChain fun c d => ¬(c = '?' ∧ d = '?') :=
    List.isChain_cons.mpr ⟨fun d hd h => head_escapeQuestions text d hd h.2, ih⟩
  fun_induction escapeQuestions text with
  | case1 c rest ih => exact List.isChain_cons_cons.mpr ⟨by simp, hcons c ih⟩
  | case2 rest ih => exact List.isChain_cons_cons.mpr ⟨by simp, hcons '?' ih⟩
  | case3 c rest _ _ ih => exact hcons c ih
  | case4 => exact .nil

theorem mem_escapeQuestions {text : Span} {c : Char} (h : c ∈ escapeQuestions text) : c ∈ text ∨ c = '\\' := by
  fun_induction escapeQuestions text with
  | case1 d rest ih =>
    simp only [List.mem_cons] at h ⊢
    rcases h with h | h | h
    . exact .inr h
    . exact .inl (.inr (.inl h))
    . exact (ih h).imp_left fun h => .inr (.inr h)
  | case2 rest ih =>
    simp only [List.mem_cons] at h ⊢
    rcases h with h | h | h
    . exact .inr h
    . exact .inl (.inl h)
    . exact (ih h).imp_left .inr
  | case3 d rest _ _ ih =>
    simp only [List.mem_cons] at h ⊢
    rcases h with h | h
    . exact .inl (.inl h)
    . exact (ih h).imp_left .inr
  | case4 => simp at h

theorem itemsText_line {close : Char} {items : List Item} (h : IsQuoted close items) : '\n' ∉ itemsText items := by
  have hdigits {digits : Span} (hhex : ∀ d ∈ digits, isHexDigit d = true) : '\n' ∉ digits :=
    fun hmem => (hexDigit_kind (hhex _ hmem)).2.2.2 rfl
  induction items with
  | nil => simp [itemsText]
  | cons item items ih =>
    rw [itemsText, List.flatMap_cons, List.mem_append, not_or]
    refine ⟨?_, ih h.2⟩
    have hvalid := h.1
    cases item with
    | plain c => simpa [Item.text] using fun heq => hvalid.2.2 heq.symm
    | simple c =>
      have : c ≠ '\n' := by
        rintro rfl
        simp [Item.Valid, isSimpleEscape] at hvalid
      simpa [Item.text] using this.symm
    | octal digits => simpa [Item.text] using hdigits fun d hd => isHexDigit_of_octal (hvalid.2.1 d hd)
    | hex x digits =>
      have hx : x ≠ '\n' := by
        rcases hvalid.1 with rfl | rfl <;> decide
      simpa [Item.text, hx.symm] using hdigits hvalid.2.2.1
    | unicode digits => simpa [Item.text] using hdigits hvalid.2
    | unicodeLong digits => simpa [Item.text] using hdigits (isLong_digits hvalid).2

theorem denotes_escaped {close : Char} {items : List Item} (h : IsQuoted close items)
    : CString.denotes ('"' :: (escapeQuestions (itemsText items) ++ ['"'])) = itemsCBytes items := by
  have hsingle : (escapeQuestions (itemsText items) ++ ['"']).IsChain fun c d => ¬(c = '?' ∧ d = '?') := by
    apply List.isChain_append.mpr
    exact ⟨escapeQuestions_chain _, .singleton _, by simp⟩
  have hline : '\n' ∉ escapeQuestions (itemsText items) ++ ['"'] := by
    intro hmem
    rcases List.mem_append.mp hmem with hmem | hmem
    . rcases mem_escapeQuestions hmem with hmem | hmem
      . exact itemsText_line h hmem
      . simp at hmem
    . simp at hmem
  rw [CString.denotes_line hsingle hline, escapeQuestions_items h, content_items h]

/--
The copy of a literal between double quotes is one literal of C and denotes what the items denote.
-/
def KeepsBytes (span : Span) (items : List Item) : Prop :=
  ∃ escaped, constToBytes (.string span) = .ok escaped
    ∧ CString.denotes ('"' :: (escaped ++ ['"'])) = some (itemsBytes items)

/--
A literal that is accepted has items, and its copy keeps their bytes exactly if they are portable.
-/
theorem parseStringLiteral_keepsBytes {b b' : Buffer} {span : Span} (h : parseStringLiteral.run b = (.ok span, b'))
    : (∃ literal close items, IsStringLiteral literal span close items ∧ Covers b literal b')
      ∧ ∀ literal close items, IsStringLiteral literal span close items → Covers b literal b'
        → (KeepsBytes span items ↔ ∀ item ∈ items, item.IsPortable) := by
  refine ⟨parseStringLiteral_ok.mp h, ?_⟩
  intro literal close items hliteral _
  rw [← itemsCBytes_iff hliteral.valid, ← denotes_escaped hliteral.valid, ← hliteral.span_eq]
  constructor
  . rintro ⟨escaped, hescaped, hdenotes⟩
    obtain rfl := Except.ok.inj hescaped
    exact hdenotes
  . intro hdenotes
    exact ⟨escapeQuestions span, rfl, hdenotes⟩

theorem question_keepsBytes : KeepsBytes "a\\n?".toList [.plain 'a', .simple 'n', .plain '?'] := by
  have hliteral : IsStringLiteral "\"a\\n?\"".toList "a\\n?".toList '"' [.plain 'a', .simple 'n', .plain '?'] :=
    ⟨.inl rfl, by simp [IsQuoted, Item.Valid, isSimpleEscape], rfl, rfl⟩
  have hrun : parseStringLiteral.run ⟨0, "\"a\\n?\"".toList⟩ = (.ok "a\\n?".toList, ⟨6, []⟩) := rfl
  exact ((parseStringLiteral_keepsBytes hrun).2 _ _ _ hliteral ⟨rfl, rfl⟩).mpr (by simp [Item.IsPortable])

/--
C takes all three digits for one escape.
-/
theorem threeDigits_not_keepsBytes
    : parseStringLiteral.run ⟨0, "\"\\x041\"".toList⟩ = (.ok "\\x041".toList, ⟨7, []⟩)
      ∧ IsStringLiteral "\"\\x041\"".toList "\\x041".toList '"' [.hex 'x' "041".toList]
      ∧ itemsBytes [.hex 'x' "041".toList] = [0x04, 0x31]
      ∧ ¬KeepsBytes "\\x041".toList [.hex 'x' "041".toList] := by
  refine ⟨rfl, ⟨.inl rfl, ?_, rfl, rfl⟩, rfl, ?_⟩
  . simp [IsQuoted, Item.Valid, itemsText, isHexDigit, isDigit]
  . rintro ⟨escaped, hescaped, hdenotes⟩
    obtain rfl := Except.ok.inj hescaped
    have hC : CString.denotes ('"' :: (escapeQuestions "\\x041".toList ++ ['"'])) = some [0x41] := rfl
    rw [hC] at hdenotes
    exact absurd (Option.some.inj hdenotes) (by decide)

end Gremlin
