import Mathlib.Data.List.Chain
import Mathlib.Data.List.TakeWhile

/-!
This module contains the string literals of C and the bytes that they denote, with UTF-8 as the execution
character set.
-/

namespace Gremlin.Text.CString

/-! The first two phases of translation. -/

def trigraph : Char → Option Char
  | '=' => some '#'
  | '(' => some '['
  | '/' => some '\\'
  | ')' => some ']'
  | '\x27' => some '^'
  | '<' => some '\x7b'
  | '!' => some '|'
  | '>' => some '\x7d'
  | '-' => some '~'
  | _ => none

def replaceTrigraphs : List Char → List Char
  | '?' :: '?' :: d :: rest =>
    match trigraph d with
    | some e => e :: replaceTrigraphs rest
    | none => '?' :: replaceTrigraphs ('?' :: d :: rest)
  | c :: rest => c :: replaceTrigraphs rest
  | [] => []

/--
Lines that end with a backslash go on with the next one.
-/
def spliceLines : List Char → List Char
  | '\\' :: '\n' :: rest => spliceLines rest
  | c :: rest => c :: spliceLines rest
  | [] => []

/-! Escapes. -/

def isOctal (c : Char) : Bool :=
  '0' ≤ c && c ≤ '7'

def isHex (c : Char) : Bool :=
  ('0' ≤ c && c ≤ '9') || ('a' ≤ c && c ≤ 'f') || ('A' ≤ c && c ≤ 'F')

def digit (c : Char) : Nat :=
  if c ≤ '9' then c.toNat - 48
  else if c ≤ 'F' then c.toNat - 55
  else c.toNat - 87

def number (base : Nat) (digits : List Char) : Nat :=
  digits.foldl (fun n c => n * base + digit c) 0

def simple : Char → Option UInt8
  | 'a' => some 7
  | 'b' => some 8
  | 't' => some 9
  | 'n' => some 10
  | 'v' => some 11
  | 'f' => some 12
  | 'r' => some 13
  | '"' => some 34
  | '\x27' => some 39
  | '?' => some 63
  | '\\' => some 92
  | _ => none

/--
The code points that a universal character name may not have: those of the basic characters and of the
surrogates.
-/
def isReserved (n : Nat) : Bool :=
  (n < 0xA0 && n ≠ 0x24 && n ≠ 0x40 && n ≠ 0x60) || (0xD800 ≤ n && n ≤ 0xDFFF) || 0x10FFFF < n

def byte (n : Nat) : Option (List UInt8) :=
  if n ≤ 255 then some [UInt8.ofNat n] else none

def universal (count : Nat) (text : List Char) : Option (List UInt8 × List Char) :=
  let digits := text.take count
  if digits.length = count ∧ digits.all isHex ∧ ¬isReserved (number 16 digits) then
    some (String.utf8EncodeChar (Char.ofNat (number 16 digits)), text.drop count)
  else
    none

/--
What an escape denotes and what comes behind it. The text is without the backslash.
-/
def escape : List Char → Option (List UInt8 × List Char)
  | [] => none
  | c :: rest =>
    if c = 'x' then
      let digits := rest.takeWhile isHex
      if digits = [] then none
      else (byte (number 16 digits)).map fun bytes => (bytes, rest.dropWhile isHex)
    else if c = 'u' then universal 4 rest
    else if c = 'U' then universal 8 rest
    else if isOctal c then
      let digits := ((c :: rest).take 3).takeWhile isOctal
      (byte (number 8 digits)).map fun bytes => (bytes, (c :: rest).drop digits.length)
    else
      (simple c).map fun b => ([b], rest)

/-! Literals. -/

/--
What comes behind the opening quote of a literal, up to the closing one, behind which there must be nothing.
-/
def content.go : (fuel : Nat) → List Char → Option (List UInt8)
  | 0, _ => none
  | _, [] => none
  | fuel + 1, c :: rest =>
    if c = '"' then
      if rest = [] then some [] else none
    else if c = '\n' then
      none
    else if c = '\\' then
      match escape rest with
      | some (bytes, rest') => (content.go fuel rest').map (bytes ++ ·)
      | none => none
    else
      (content.go fuel rest).map (String.utf8EncodeChar c ++ ·)

def content (text : List Char) : Option (List UInt8) :=
  content.go text.length text

/--
What a text denotes that is one string literal, without the zero at its end.
-/
def denotes (text : List Char) : Option (List UInt8) :=
  match spliceLines (replaceTrigraphs text) with
  | '"' :: rest => content rest
  | _ => none

/-! The phases leave most texts as they are. -/

theorem replaceTrigraphs_of_single {text : List Char} (h : text.IsChain fun c d => ¬(c = '?' ∧ d = '?'))
    : replaceTrigraphs text = text := by
  fun_induction replaceTrigraphs text with
  | case1 | case2 => exact absurd ⟨rfl, rfl⟩ (List.isChain_cons_cons.mp h).1
  | case3 c rest _ ih => rw [ih h.tail]
  | case4 => rfl

theorem spliceLines_of_line {text : List Char} (h : '\n' ∉ text) : spliceLines text = text := by
  fun_induction spliceLines text with
  | case1 => simp at h
  | case2 c rest _ ih => rw [ih fun hmem => h (List.mem_cons_of_mem c hmem)]
  | case3 => rfl

theorem denotes_line {text : List Char} (hsingle : text.IsChain fun c d => ¬(c = '?' ∧ d = '?')) (hline : '\n' ∉ text)
    : denotes ('"' :: text) = content text := by
  have hquote : ('"' :: text).IsChain fun c d => ¬(c = '?' ∧ d = '?') := by
    cases text with
    | nil => exact .singleton _
    | cons c rest => exact List.isChain_cons_cons.mpr ⟨by simp, hsingle⟩
  unfold denotes
  rw [replaceTrigraphs_of_single hquote, spliceLines_of_line (by simpa using hline)]
  rfl

/-! The equations of the content. -/

theorem universal_length {count : Nat} {text rest : List Char} {bytes : List UInt8}
    (h : universal count text = some (bytes, rest)) : rest.length ≤ text.length := by
  unfold universal at h
  dsimp only at h
  split at h
  . simp only [Option.some.injEq, Prod.mk.injEq] at h
    rw [← h.2]
    simp
  . simp at h

theorem escape_length {text rest : List Char} {bytes : List UInt8} (h : escape text = some (bytes, rest))
    : rest.length ≤ text.length := by
  cases text with
  | nil => simp [escape] at h
  | cons c text =>
    unfold escape at h
    dsimp only at h
    split at h
    . split at h
      . simp at h
      . obtain ⟨_, -, h⟩ := Option.map_eq_some_iff.mp h
        rw [← (Prod.mk.inj h).2]
        have := List.length_dropWhile_le isHex text
        simp only [List.length_cons]
        omega
    . split at h
      . exact (universal_length h).trans (Nat.le_succ _)
      . split at h
        . exact (universal_length h).trans (Nat.le_succ _)
        . split at h
          . obtain ⟨_, -, h⟩ := Option.map_eq_some_iff.mp h
            rw [← (Prod.mk.inj h).2]
            simp
          . obtain ⟨_, -, h⟩ := Option.map_eq_some_iff.mp h
            rw [← (Prod.mk.inj h).2]
            simp

theorem content_go {fuel : Nat} {text : List Char} (h : text.length ≤ fuel) : content.go fuel text = content text := by
  have hfuel : ∀ n m (text : List Char), text.length ≤ n → text.length ≤ m → content.go n text = content.go m text := by
    intro n
    induction n with
    | zero =>
      intro m text hn _
      obtain rfl : text = [] := List.eq_nil_of_length_eq_zero (by omega)
      cases m <;> rfl
    | succ n ih =>
      intro m text hn hm
      cases text with
      | nil => cases m <;> rfl
      | cons c rest =>
        cases m with
        | zero => simp at hm
        | succ m =>
          rw [List.length_cons] at hn hm
          unfold content.go
          rw [ih m rest (by omega) (by omega)]
          rcases hescape : escape rest with _ | ⟨bytes, rest'⟩
          . rfl
          . have := escape_length hescape
            dsimp only
            rw [ih m rest' (by omega) (by omega)]
  exact hfuel _ _ _ h (le_refl _)

theorem content_quote (rest : List Char) : content ('"' :: rest) = if rest = [] then some [] else none :=
  rfl

theorem content_plain {c : Char} (hquote : c ≠ '"') (hline : c ≠ '\n') (hescape : c ≠ '\\') (rest : List Char)
    : content (c :: rest) = (content rest).map (String.utf8EncodeChar c ++ ·) := by
  unfold content
  rw [List.length_cons, content.go, if_neg hquote, if_neg hline, if_neg hescape]

theorem content_escape (rest : List Char)
    : content ('\\' :: rest) = (escape rest).bind fun (bytes, rest') => (content rest').map (bytes ++ ·) := by
  unfold content
  rw [List.length_cons, content.go, if_neg (by decide), if_neg (by decide), if_pos rfl]
  rcases hescape : escape rest with _ | ⟨bytes, rest'⟩
  . rfl
  . dsimp only
    rw [content_go (escape_length hescape)]
    rfl

end Gremlin.Text.CString
