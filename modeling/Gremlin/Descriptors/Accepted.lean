import Gremlin.Descriptors.Covered
import Gremlin.Descriptors.Idempotence

/-!
This module contains which files the builder accepts: those with an outline in which the bodies of all
enums and oneofs are entries to their end.
-/

namespace Gremlin

open Text Parser Memory

variable {α β σ : Type}

/--
The result is no error of the parser.
-/
def Fine (x : Except Stop α) : Prop :=
  ∀ e, x ≠ .error (.error e)

theorem fine_ok (a : α) : Fine (.ok a) :=
  nofun

theorem Fine.bind {x : Except Stop α} {f : α → Except Stop β} (hx : Fine x) (hf : ∀ a, Fine (f a))
    : Fine (x >>= f) := by
  rcases x with e | a
  . intro e' h
    exact hx e' (by simpa [Bind.bind, Except.bind] using h)
  . exact hf a

theorem fine_orOverrun (x : Option α) : Fine (orOverrun x) := by
  cases x <;> simp [Fine, orOverrun]

theorem fine_foldlM {act : σ → α → Except Stop σ} {es : List α} (hact : ∀ e ∈ es, ∀ s, Fine (act s e)) (s : σ)
    : Fine (es.foldlM act s) := by
  induction es generalizing s with
  | nil => exact fine_ok s
  | cons e es ih =>
    rw [List.forall_mem_cons] at hact
    rw [List.foldlM_cons]
    exact (hact.1 s).bind (ih hact.2)

/--
A walk over entries up to the end fails only where an entry makes it fail.
-/
theorem fine_walk {next : EntryParser α} (hnext : Eager next) {act : σ → α → Except Stop σ} {buf : Buffer}
    {es : List α} (hes : entries next buf = (es, none)) (hact : ∀ e ∈ es, ∀ s, Fine (act s e)) (s : σ)
    : Fine (walk next act buf s) := by
  rw [walk_eq hnext, hes]
  exact (fine_foldlM hact s).bind fine_ok

theorem fine_putField (s : FieldState) (fld : FieldNode) : Fine (s.putField fld) :=
  (fine_orOverrun _).bind fun _ => fine_ok _

theorem fine_countValue (n : Nat) (e : EnumEntry) : Fine (countValue n e) := by
  cases e <;> exact fine_ok _

theorem fine_fillValue (s : Slots EnumFieldParseResult × Nat) (e : EnumEntry) : Fine (fillValue s e) := by
  cases e with
  | field value => exact (fine_orOverrun _).bind fun _ => fine_ok _
  | option _ | reserved _ => exact fine_ok _

theorem fine_countOneofEntry (n : Nat) (e : OneofEntry) : Fine (countOneofEntry n e) := by
  cases e <;> exact fine_ok _

theorem entries_of_end {next : EntryParser α} {buf : Buffer} (h : (entries next buf).2 = none)
    : entries next buf = ((entries next buf).1, none) :=
  Prod.ext rfl h

section Fields

variable [Libc] {text : Span}

theorem fine_fillOneofEntry (stop : Nat) (s : FieldState) (e : OneofEntry)
    : Fine (fillOneofEntry text stop s e) := by
  cases e with
  | field parsed => exact fine_putField _ _
  | option _ => exact fine_ok _

theorem fine_fillEnum {parsed : BodyParseResult} (h : (entries enumNextEntry (bodyOf text parsed)).2 = none)
    (parent : Option Nat) (state : FillState) : Fine (fillEnum text parsed parent state) := by
  apply Fine.bind ((fine_orOverrun _).bind fun _ => fine_ok _)
  intro state
  have hes := entries_of_end h
  apply Fine.bind (fine_walk eager_enumNextEntry hes (fun e _ n => fine_countValue n e) 0)
  intro n
  split
  . exact fine_ok _
  . apply Fine.bind (fine_walk eager_enumNextEntry hes (fun e _ s => fine_fillValue s e) _)
    intro values
    exact (fine_orOverrun _).bind fun _ => fine_ok _

theorem fine_countFieldEntry {e : MessageEntry} (h : EntryComplete text (.inr e)) (n : Nat)
    : Fine (countFieldEntry text n e) := by
  cases e with
  | oneof parsed =>
    have hes := entries_of_end (h.2 parsed rfl)
    exact fine_walk eager_oneofNextEntry hes (fun e _ n => fine_countOneofEntry n e) n
  | field _ | enumeration _ | message _ | option _ | extensions _ | reserved _ | extend _ | group => exact fine_ok _

end Fields

section Bodies

variable [Libc] {text : Span} {es : List MessageEntry} {o : Outline}

theorem Outline.OfBody.fine_count (h : o.OfBody text es) (fuel : Nat)
    : ∀ e ∈ es, ∀ out, Fine (countMessageEntry (countMessageBody text fuel) out e) := by
  induction h generalizing fuel with
  | nil => exact fun e hmem => absurd hmem List.not_mem_nil
  | @entry e es rest he _ ih =>
    rw [List.forall_mem_cons]
    refine ⟨?_, ih fuel⟩
    intro out
    cases e with
    | message parsed => exact absurd rfl (he parsed)
    | enumeration _ | oneof _ | option _ | extensions _ | reserved _ | extend _ | group | field _ => exact fine_ok _
  | @message parsed inner es body rest hinner _ _ ihbody ih =>
    rw [List.forall_mem_cons]
    refine ⟨?_, ih fuel⟩
    intro out
    cases fuel with
    | zero => simp [Fine, countMessageEntry, countMessageBody]
    | succ fuel => exact fine_walk eager_messageNextEntry hinner (ihbody fuel) _

theorem Outline.OfBody.fine_countFields (h : o.OfBody text es) (hcomplete : o.Complete text)
    : ∀ e ∈ es, ∀ n, Fine (countFieldEntry text n e) := by
  induction h with
  | nil => exact fun e hmem => absurd hmem List.not_mem_nil
  | entry _ _ ih =>
    rw [List.forall_mem_cons]
    exact ⟨fine_countFieldEntry hcomplete.1, ih hcomplete.2⟩
  | message _ _ _ _ ih =>
    rw [List.forall_mem_cons]
    exact ⟨fine_ok, ih hcomplete.2⟩

theorem fine_fillMessage_succ {parsed : BodyParseResult} (hinner : bodyEntries text parsed = (es, none))
    (h : o.OfBody text es) (hcomplete : o.Complete text) {fuel : Nat}
    (hnested : ∀ out stop, ∀ e ∈ es, ∀ s, Fine (fillMessageEntry text (fillMessage text fuel) out stop s e))
    (parent : Option Nat) (state : FillState) : Fine (fillMessage text (fuel + 1) parsed parent state) := by
  apply Fine.bind ((fine_orOverrun _).bind fun _ => fine_ok _)
  intro state
  apply Fine.bind (fine_walk eager_messageNextEntry hinner (h.fine_countFields hcomplete) 0)
  intro n
  apply Fine.bind (fine_walk eager_messageNextEntry hinner (hnested _ _) _)
  intro s
  exact (fine_orOverrun _).bind fun _ => fine_ok _

theorem Outline.OfBody.fine_fill (h : o.OfBody text es) (hcomplete : o.Complete text) (fuel out stop : Nat)
    : ∀ e ∈ es, ∀ s, Fine (fillMessageEntry text (fillMessage text fuel) out stop s e) := by
  induction h generalizing fuel out stop with
  | nil => exact fun e hmem => absurd hmem List.not_mem_nil
  | @entry e es rest he _ ih =>
    rw [List.forall_mem_cons]
    refine ⟨?_, ih hcomplete.2 fuel out stop⟩
    intro s
    cases e with
    | message parsed => exact absurd rfl (he parsed)
    | field parsed => exact fine_putField _ _
    | enumeration parsed => exact (fine_fillEnum (hcomplete.1.1 parsed rfl) _ _).bind fun _ => fine_ok _
    | oneof parsed =>
      have hes := entries_of_end (hcomplete.1.2 parsed rfl)
      exact fine_walk eager_oneofNextEntry hes (fun e _ s => fine_fillOneofEntry _ s e) s
    | option _ | extensions _ | reserved _ | extend _ | group => exact fine_ok _
  | @message parsed inner es body rest hinner hbody _ ihbody ih =>
    rw [List.forall_mem_cons]
    refine ⟨?_, ih hcomplete.2 fuel out stop⟩
    intro s
    cases fuel with
    | zero => simp [Fine, fillMessageEntry, fillMessage, Bind.bind, Except.bind]
    | succ fuel =>
      exact (fine_fillMessage_succ hinner hbody hcomplete.1 (ihbody hcomplete.1 fuel) _ _).bind fun _ => fine_ok _

end Bodies

section Files

variable [Libc] {text : Span} {es : List FileEntry} {o : Outline}

theorem Outline.OfFile.fine_count (h : o.OfFile text es)
    : ∀ e ∈ es, ∀ out, Fine (countFileEntry text out e) := by
  induction h with
  | nil => exact fun e hmem => absurd hmem List.not_mem_nil
  | @entry e es rest he _ ih =>
    rw [List.forall_mem_cons]
    refine ⟨?_, ih⟩
    intro out
    cases e with
    | message parsed => exact absurd rfl (he parsed)
    | syntaxDef _ | edition _ | package _ | importDef _ | option _ | enumeration _ | service | extend _ =>
      exact fine_ok _
  | message hinner hbody _ ih =>
    rw [List.forall_mem_cons]
    exact ⟨fun _ => fine_walk eager_messageNextEntry hinner (hbody.fine_count _) _, ih⟩

theorem Outline.OfFile.fine_fill (h : o.OfFile text es) (hcomplete : o.Complete text)
    : ∀ e ∈ es, ∀ state, Fine (fillFileEntry text state e) := by
  induction h with
  | nil => exact fun e hmem => absurd hmem List.not_mem_nil
  | @entry e es rest he _ ih =>
    rw [List.forall_mem_cons]
    refine ⟨?_, ih hcomplete.2⟩
    intro state
    cases e with
    | message parsed => exact absurd rfl (he parsed)
    | importDef parsed => exact (fine_orOverrun _).bind fun _ => fine_ok _
    | enumeration parsed => exact fine_fillEnum (hcomplete.1.1 parsed rfl) _ _
    | syntaxDef _ | edition _ | package _ | option _ | service | extend _ => exact fine_ok _
  | @message parsed inner es body rest hinner hbody _ ih =>
    rw [List.forall_mem_cons]
    exact ⟨fun state => fine_fillMessage_succ hinner hbody hcomplete.1 (hbody.fine_fill hcomplete.1 _) _ _,
      ih hcomplete.2⟩

/--
The builder accepts exactly what has an outline whose enums and oneofs are entries to their end.
-/
theorem buildFile_ok_iff (text : Span) (offset : Nat) (file : FileNode)
    : buildFile text offset = .ok file ↔ ∃ o, Outline.Of text offset o ∧ o.Complete text ∧ file = o.file text := by
  constructor
  . exact exists_outline
  . rintro ⟨o, ho, hcomplete, rfl⟩
    rcases (buildFile_regular text offset).cases with ⟨e, herror⟩ | ⟨file, hok, o', ho', -, -, rfl⟩
    . refine absurd herror ?_
      obtain ⟨es, hes, ho⟩ := ho
      apply Fine.bind (fine_walk eager_fileNextEntry hes ho.fine_count _)
      intro cnt
      apply Fine.bind (fine_walk eager_fileNextEntry hes (ho.fine_fill hcomplete) _)
      intro state
      cases state.built <;> simp [Fine, pure, Except.pure]
    . rw [hok, ho.unique ho']

end Files

end Gremlin
