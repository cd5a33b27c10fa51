import Gremlin.Descriptors.Covered

/-!
This module contains where the bodies of an outline stand in the text: between the brackets of their blocks.
-/

namespace Gremlin

open Text Parser Buffer

/--
The body is what stands between an opening bracket of the text and a closing one.
-/
def Braced (text : Span) (parsed : BodyParseResult) : Prop :=
  ∃ before body after, text = before ++ '{' :: (body ++ '}' :: after)
    ∧ bodyOf text parsed = ⟨before.length + 1, body⟩ ∧ parsed.bodyEnd = before.length + 1 + body.length

/--
A body between brackets that are ahead of a buffer.
-/
def HasBlock (b : Buffer) (parsed : BodyParseResult) : Prop :=
  ∃ b₁ c after, Opened b b₁ ∧ b₁.offset = parsed.bodyStart
    ∧ Advances b₁ c ∧ c.offset = parsed.bodyEnd ∧ c.rest = '}' :: after

theorem HasBlock.back {b b' : Buffer} {parsed : BodyParseResult} (hforward : Advances b b')
    (h : HasBlock b' parsed) : HasBlock b parsed := by
  obtain ⟨b₁, c, after, ⟨open', hopen, hbracket⟩, hblock⟩ := h
  exact ⟨b₁, c, after, ⟨open', hforward.trans hopen, hbracket⟩, hblock⟩

theorem Body.hasBlock {α : Type} {item : EntryParser α} {b b₁ b' : Buffer} {parsed : BodyParseResult}
    {es : List α} {k : Nat} (h : Body item b₁ es k parsed.bodyEnd b') (hopened : Opened b b₁)
    (hstart : b₁.offset = parsed.bodyStart) : HasBlock b parsed := by
  obtain ⟨c, hforward, hend, hrest⟩ := h.advances
  exact ⟨b₁, c, b'.rest, hopened, hstart, hforward, hend, hrest⟩

theorem between_append (before body after : List Char)
    : between (before ++ (body ++ after)) before.length (before.length + body.length) = ⟨before.length, body⟩ := by
  rw [between, ← List.append_assoc, ← List.length_append, List.take_left, List.drop_left]

theorem HasBlock.braced {text : Span} {start stop : Nat} {parsed : BodyParseResult}
    (h : HasBlock (between text start stop) parsed) : Braced text parsed := by
  obtain ⟨b₁, c, after, ⟨o, hforward, hopen, hoffset⟩, hstart, ⟨body, hbody, hlength⟩, hend, hclose⟩ := h
  have hrest : (text.take stop).drop o.offset = '{' :: (body ++ '}' :: after) := by
    have := congrArg Buffer.rest hforward.eq_between
    rw [hopen, hbody, hclose] at this
    exact this.symm
  have hlt : o.offset < (text.take stop).length := by
    rw [← List.drop_eq_nil_iff.not.trans not_le, hrest]
    simp
  have hbefore : ((text.take stop).take o.offset).length = o.offset := by
    rw [List.length_take]
    omega
  have htext : text = (text.take stop).take o.offset ++ '{' :: (body ++ '}' :: (after ++ text.drop stop)) := by
    conv_lhs => rw [← List.take_append_drop stop text, ← List.take_append_drop o.offset (text.take stop), hrest]
    simp
  refine ⟨_, body, _, htext, ?_, by omega⟩
  have hsplit : text = ((text.take stop).take o.offset ++ ['{']) ++ (body ++ '}' :: (after ++ text.drop stop)) := by
    rw [List.append_assoc]
    exact htext
  have hhead : ((text.take stop).take o.offset ++ ['{']).length = o.offset + 1 := by
    rw [List.length_append, hbefore]
    rfl
  have hbetween := between_append ((text.take stop).take o.offset ++ ['{']) body ('}' :: (after ++ text.drop stop))
  rw [← hsplit, hhead] at hbetween
  rw [bodyOf, hbefore, ← hstart, ← hend, hlength, hoffset]
  exact hbetween

/--
The block of an entry: of a message, an enum, a oneof or an extend block.
-/
def blockOf : FileEntry ⊕ MessageEntry → Option BodyParseResult
  | .inl (.message parsed) | .inl (.enumeration parsed) => some parsed
  | .inl (.extend parsed) => some ⟨parsed.baseType, parsed.bodyStart, parsed.bodyEnd⟩
  | .inr (.message parsed) | .inr (.enumeration parsed) | .inr (.oneof parsed) => some parsed
  | .inr (.extend parsed) => some ⟨parsed.baseType, parsed.bodyStart, parsed.bodyEnd⟩
  | _ => none

def Outline.Braced (text : Span) : Outline → Prop
  | .nil => True
  | .entry e rest => (∀ parsed, blockOf e = some parsed → Gremlin.Braced text parsed) ∧ rest.Braced text
  | .message parsed body rest => Gremlin.Braced text parsed ∧ body.Braced text ∧ rest.Braced text

section Entries

variable [Libc]

theorem extendParse_hasBlock {b b' : Buffer} {parsed : ExtendParseResult}
    (h : extendParse.run b = (.ok parsed, b'))
    : HasBlock b ⟨parsed.baseType, parsed.bodyStart, parsed.bodyEnd⟩ := by
  obtain ⟨b₁, es, k, hopened, hstart, hbody⟩ := extendParse_body h
  obtain ⟨c, hforward, hend, hrest⟩ := hbody.advances
  exact ⟨b₁, c, b'.rest, hopened, hstart, hforward, hend, hrest⟩

theorem messageNextEntry_hasBlock
    : Ensures messageNextEntry fun b e => ∀ parsed, blockOf (.inr e) = some parsed → HasBlock b parsed := by
  apply messageNextEntry_ensures
  case hQ => exact fun _ _ _ hforward h parsed heq => (h parsed heq).back hforward
  case henum =>
    rintro b parsed b' h _ ⟨rfl⟩
    obtain ⟨b₁, es, k, hopened, hstart, hbody⟩ := enumParse_body h
    exact hbody.hasBlock hopened hstart
  case hmessage =>
    rintro b parsed b' h _ ⟨rfl⟩
    obtain ⟨b₁, es, k, hopened, hstart, hbody⟩ := messageParse_body h
    exact hbody.hasBlock hopened hstart
  case honeof =>
    rintro b parsed b' h _ ⟨rfl⟩
    obtain ⟨b₁, es, k, hopened, hstart, hbody⟩ := oneofParse_body h
    exact hbody.hasBlock hopened hstart
  case hextend =>
    rintro b parsed b' h _ ⟨rfl⟩
    exact extendParse_hasBlock h
  all_goals simp [Ensures, blockOf]

theorem fileNextEntry_hasBlock
    : Ensures fileNextEntry fun b e => ∀ parsed, blockOf (.inl e) = some parsed → HasBlock b parsed := by
  apply fileNextEntry_ensures
  case hQ => exact fun _ _ _ hforward h parsed heq => (h parsed heq).back hforward
  case henum =>
    rintro b parsed b' h _ ⟨rfl⟩
    obtain ⟨b₁, es, k, hopened, hstart, hbody⟩ := enumParse_body h
    exact hbody.hasBlock hopened hstart
  case hmessage =>
    rintro b parsed b' h _ ⟨rfl⟩
    obtain ⟨b₁, es, k, hopened, hstart, hbody⟩ := messageParse_body h
    exact hbody.hasBlock hopened hstart
  case hextend =>
    rintro b parsed b' h _ ⟨rfl⟩
    exact extendParse_hasBlock h
  all_goals simp [Ensures, blockOf]

variable {text : Span}

theorem bodyEntries_braced {parsed : BodyParseResult} {es : List MessageEntry}
    (h : bodyEntries text parsed = (es, none))
    : ∀ e ∈ es, ∀ block, blockOf (.inr e) = some block → Braced text block := by
  have hes : es = (entries messageNextEntry (bodyOf text parsed)).1 := (congrArg Prod.fst h).symm
  intro e he block hblock
  rw [hes] at he
  have hback : Backward fun (b : Buffer) (e : MessageEntry) => ∀ block, blockOf (.inr e) = some block
      → HasBlock b block := fun _ _ _ hforward h block heq => (h block heq).back hforward
  exact (entries_mem messageNextEntry_hasBlock hback he block hblock).braced

theorem Outline.OfBody.braced {es : List MessageEntry} {o : Outline} (ho : o.OfBody text es)
    (hes : ∀ e ∈ es, ∀ block, blockOf (.inr e) = some block → Gremlin.Braced text block) : o.Braced text := by
  induction ho with
  | nil => trivial
  | entry he hrest ih =>
    rw [List.forall_mem_cons] at hes
    exact ⟨hes.1, ih hes.2⟩
  | message hinner hbody hrest ihbody ihrest =>
    rw [List.forall_mem_cons] at hes
    exact ⟨hes.1 _ rfl, ihbody (bodyEntries_braced hinner), ihrest hes.2⟩

theorem Outline.OfFile.braced {es : List FileEntry} {o : Outline} (ho : o.OfFile text es)
    (hes : ∀ e ∈ es, ∀ block, blockOf (.inl e) = some block → Gremlin.Braced text block) : o.Braced text := by
  induction ho with
  | nil => trivial
  | entry he hrest ih =>
    rw [List.forall_mem_cons] at hes
    exact ⟨hes.1, ih hes.2⟩
  | message hinner hbody hrest ih =>
    rw [List.forall_mem_cons] at hes
    exact ⟨hes.1 _ rfl, hbody.braced (bodyEntries_braced hinner), ih hes.2⟩

/--
The bodies of all messages, enums, oneofs and extend blocks of an outline are what stands between brackets
of the text.
-/
theorem Outline.Of.braced {offset : Nat} {o : Outline} (ho : o.Of text offset) : o.Braced text := by
  obtain ⟨es, hes, ho⟩ := ho
  refine ho.braced ?_
  have heq : es = (entries fileNextEntry (fileText text offset)).1 := (congrArg Prod.fst hes).symm
  have hback : Backward fun (b : Buffer) (e : FileEntry) => ∀ block, blockOf (.inl e) = some block
      → HasBlock b block := fun _ _ _ hforward h block heq => (h block heq).back hforward
  intro e he block hblock
  rw [heq] at he
  exact (entries_mem fileNextEntry_hasBlock hback he block hblock).braced

end Entries

/--
The messages and the enums of a file: their names, those of the fields or of the values, and the bodies.
-/
def FileNode.blocks (text : Span) (file : FileNode) : List (Span × List Span × Span) :=
  file.messages.map (fun m =>
      (m.parsed.name, m.fields.map fun fld => fld.parsed.name, (bodyOf text m.parsed).rest))
    ++ file.enums.map fun en => (en.parsed.name, en.values.map fun v => v.name, (bodyOf text en.parsed).rest)

/--
A message with a message, a oneof, an enum and a field.
-/
def nestedBlocks : Span :=
  "message M{message N{int32 a=1;}oneof o{int32 b=2;bool c=3;}enum E{X=0;Y=1;}int32 d=4;}".toList

example : (@buildFile Pool.constLibc nestedBlocks 0).toOption.map (FileNode.blocks nestedBlocks) = some [
    ("M".toList, ["b".toList, "c".toList, "d".toList],
      "message N{int32 a=1;}oneof o{int32 b=2;bool c=3;}enum E{X=0;Y=1;}int32 d=4;".toList),
    ("N".toList, ["a".toList], "int32 a=1;".toList),
    ("E".toList, ["X".toList, "Y".toList], "X=0;Y=1;".toList)] := by
  decide +kernel

end Gremlin
