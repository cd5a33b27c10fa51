import Gremlin.Descriptors.Pipeline

/-!
This module contains what holds of all fields of a file and of its extend blocks because the parsers of
fields establish it.
-/

namespace Gremlin

open Text Parser

theorem Text.Parser.Ensures.andThen {ε α β : Type} {p : Parser ε α} {f : α → Parser ε β} {P : α → Prop}
    {Q : β → Prop} (hp : Ensures p fun _ => P) (hf : ∀ a, P a → Ensures (f a) fun _ => Q)
    : Ensures (p.andThen f) fun _ => Q := by
  intro b y b' h
  obtain ⟨x, b'', hpb, hfb⟩ := andThen_ok.mp h
  exact hf x (hp _ _ _ hpb) _ _ _ hfb

theorem Text.Parser.Ensures.restoring {ε α : Type} {p : Parser ε α} {Q : Buffer → α → Prop}
    (hp : Ensures p Q) : Ensures p.restoring Q := by
  intro b a b' h
  exact hp _ _ _ (restoring_ok.mp h)

theorem backward_const {α : Type} (Q : α → Prop) : Backward fun (_ : Buffer) (a : α) => Q a :=
  fun _ _ _ _ h => h

section Fields

variable [Libc] {P : FieldParseResult → Prop} (hfield : Ensures fieldParse fun _ => P)
  (honeof : Ensures oneofFieldParse fun _ parsed => P (oneofField parsed))

include hfield in
theorem messageNextEntry_field : Ensures messageNextEntry fun _ e => ∀ parsed, e = .field parsed → P parsed := by
  apply messageNextEntry_ensures
  case hQ => exact backward_const fun e : MessageEntry => ∀ parsed, e = .field parsed → P parsed
  case hfield =>
    rintro b parsed b' h _ ⟨rfl⟩
    exact hfield _ _ _ h
  all_goals simp [Ensures]

include honeof in
theorem oneofNextEntry_member : Ensures oneofNextEntry fun _ e => ∀ fld, oneofMember e = some fld → P fld := by
  have hback := backward_const fun e : OneofEntry => ∀ fld, oneofMember e = some fld → P fld
  apply Ensures.restoring
  refine ensures_andThen hback _ fun _ => ?_
  apply Ensures.orElse hback
  . apply ensures_andThen hback
    intro option
    exact ensures_succeed fun _ => by simp [oneofMember]
  . have hmember (b : Buffer) (parsed : OneofFieldParseResult) (hparsed : P (oneofField parsed))
        : ∀ fld, oneofMember (.field parsed) = some fld → P fld := by
      intro fld hfld
      simp only [oneofMember, Option.some.injEq] at hfld
      rw [← hfld]
      exact hparsed
    exact Ensures.map honeof hmember

/-! The fields of an outline. -/

variable {text : Span}

include hfield in
theorem bodyEntries_field {parsed : BodyParseResult} {fld : FieldParseResult}
    (h : .field fld ∈ (bodyEntries text parsed).1) : P fld :=
  entries_mem (messageNextEntry_field hfield)
    (backward_const fun e : MessageEntry => ∀ parsed, e = .field parsed → P parsed) h fld rfl

include honeof in
theorem membersOf_field {parsed : BodyParseResult} : ∀ fld ∈ membersOf text parsed, P fld := by
  intro fld hfld
  obtain ⟨e, he, hmember⟩ := List.mem_filterMap.mp hfld
  exact entries_mem (oneofNextEntry_member honeof)
    (backward_const fun e : OneofEntry => ∀ fld, oneofMember e = some fld → P fld) he fld hmember

include honeof in
theorem Outline.OfBody.fields_parsed {es : List MessageEntry} {o : Outline} (h : o.OfBody text es)
    (hes : ∀ fld, .field fld ∈ es → P fld) (stop : Nat) : ∀ fld ∈ o.fields text stop, P fld.parsed := by
  induction h with
  | nil => simp [Outline.fields]
  | @entry e es rest he hrest ih =>
    intro fld hfld
    rw [Outline.fields, List.mem_append] at hfld
    rcases hfld with hfld | hfld
    . cases e with
      | field parsed =>
        simp only [entryFields, List.mem_singleton] at hfld
        rw [hfld]
        exact hes parsed (by simp)
      | oneof parsed =>
        obtain ⟨member, hmember, rfl⟩ := List.mem_map.mp hfld
        exact membersOf_field honeof member hmember
      | enumeration | message | option | extensions | reserved | extend | group =>
        simp [entryFields] at hfld
    . exact ih (fun fld hfld => hes fld (by simp [hfld])) fld hfld
  | message hinner hbody hrest ihbody ihrest =>
    intro fld hfld
    exact ihrest (fun fld hfld => hes fld (by simp [hfld])) fld hfld

include hfield honeof

theorem Outline.OfBody.messages_parsed {es : List MessageEntry} {o : Outline} (h : o.OfBody text es)
    (parent : Option Nat) (next : Nat)
    : ∀ m ∈ o.messages text parent next, ∀ fld ∈ m.fields, P fld.parsed := by
  induction h generalizing parent next with
  | nil => simp [Outline.messages]
  | entry he hrest ih => exact ih parent next
  | @message parsed inner es body rest hinner hbody hrest ihbody ihrest =>
    intro m hm
    rw [Outline.messages, List.mem_cons, List.mem_append] at hm
    rcases hm with rfl | hm | hm
    . apply hbody.fields_parsed honeof
      intro fld hfld
      exact bodyEntries_field hfield (by rw [hinner]; exact hfld)
    . exact ihbody _ _ m hm
    . exact ihrest _ _ m hm

theorem Outline.OfFile.messages_parsed {es : List FileEntry} {o : Outline} (h : o.OfFile text es)
    (parent : Option Nat) (next : Nat)
    : ∀ m ∈ o.messages text parent next, ∀ fld ∈ m.fields, P fld.parsed := by
  induction h generalizing parent next with
  | nil => simp [Outline.messages]
  | entry he hrest ih => exact ih parent next
  | @message parsed inner es body rest hinner hbody hrest ihrest =>
    intro m hm
    rw [Outline.messages, List.mem_cons, List.mem_append] at hm
    rcases hm with rfl | hm | hm
    . apply hbody.fields_parsed honeof
      intro fld hfld
      exact bodyEntries_field hfield (by rw [hinner]; exact hfld)
    . exact hbody.messages_parsed hfield honeof _ _ m hm
    . exact ihrest _ _ m hm

theorem buildFile_fields {offset : Nat} {file : FileNode} (h : buildFile text offset = .ok file)
    : ∀ m ∈ file.messages, ∀ fld ∈ m.fields, P fld.parsed := by
  obtain ⟨o, ⟨es, -, hes⟩, -, rfl⟩ := exists_outline h
  intro m hm fld hfld
  obtain ⟨m', hm', rfl⟩ := List.mem_map.mp hm
  obtain ⟨fld', hfld', rfl⟩ := List.mem_map.mp hfld
  exact hes.messages_parsed hfield honeof none 0 m' hm' fld' hfld'

omit honeof

theorem extendFields_field {buf : Buffer} : ∀ parsed ∈ (extendFields buf).1, P parsed := by
  have hgo : ∀ fuel buf, ∀ parsed ∈ (extendFields.go fuel buf).1, P parsed := by
    intro fuel
    induction fuel with
    | zero => simp [extendFields.go]
    | succ fuel ih =>
      intro buf
      rw [extendFields.go]
      split
      . simp
      . rcases skipSpaces.run buf with ⟨e | u, buf'⟩
        . simp
        . dsimp only
          split
          . simp
          . split
            . exact ih _
            . rcases hrun : fieldParse.run buf' with ⟨e | parsed, buf''⟩
              . simp
              . exact List.forall_mem_cons.mpr ⟨hfield _ _ _ hrun, ih buf''⟩
  exact hgo _ _

end Fields

end Gremlin
