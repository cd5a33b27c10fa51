import Gremlin.Descriptors.Accepted
import Gremlin.Printer.Files

/-!
This module contains how the outline of a printed file goes with the declarations that were printed.
-/

namespace Gremlin.Printer

open Text Parser Buffer

/-! Where an item was read. -/

section Walks

variable {ι α : Type} {parse : EntryParser BodyParseResult} {next item : EntryParser α} {text : ι → Span}

/--
The entry is what the parser takes somewhere in the source, where the item stands.
-/
def ReadAt (src : Span) (item : EntryParser α) (text : ι → Span) (i : ι) (a : α) : Prop :=
  ∃ start b', Covers (between src start src.length) (text i) b' ∧ item.run (between src start src.length) = (.ok a, b')

theorem ReadIn.readAt {src : Span} {start : Nat} {i : ι} {a : α}
    (h : ReadIn item text (between src start src.length) i a) : ReadAt src item text i a := by
  obtain ⟨b₁, b₂, hforward, hcovers, hrun⟩ := h
  rw [hforward.eq_between] at hcovers hrun
  exact ⟨_, _, hcovers, hrun⟩

theorem ReadAt.of_reads {src : Span} {R : α → Prop} {Kept : Prop} {i : ι} {a : α}
    (h : Reads item (text i) R ∨ (¬Kept ∧ Refuses item (text i))) (hread : ReadAt src item text i a) : R a := by
  obtain ⟨start, b', hcovers, hrun⟩ := hread
  rcases h with h | ⟨-, h⟩
  . obtain ⟨a', hR, hrun'⟩ := h _ _ hcovers trivial
    rw [hrun, Prod.mk.injEq, Except.ok.injEq] at hrun'
    rw [hrun'.1]
    exact hR
  . exact absurd hrun (h _ _ hcovers _ _)

/--
The builder's walk over a block takes each item of it where the item stands.
-/
theorem Taken.walks (hitem : Itemized item) (hnext : next = (skipSemicolons.andThen fun _ => item).restoring)
    (hparse : Bodies parse item) {src : Span} {start : Nat} {name : Name} {items : List ι} {b' : Buffer}
    {parsed : BodyParseResult} (hrun : parse.run (between src start src.length) = (.ok parsed, b'))
    (h : Taken item text name items (between src start src.length) b' parsed)
    : ∃ es, entries next (bodyOf src parsed) = (es, none) ∧ List.Forall₂ (ReadAt src item text) items es := by
  obtain ⟨b₁, es, hforward, hstart, hbody, hread⟩ := h.body
  obtain ⟨es', k, hbody', hiff⟩ := exists_walksThrough_iff hitem hnext hparse src start src.length parsed b' hrun
  have hbetween := hforward.eq_between
  rw [hstart] at hbetween
  rw [hbetween] at hbody hread
  obtain ⟨rfl, rfl⟩ := hbody.unique hbody'
  exact ⟨es', (hiff.mpr rfl).1, hread.imp fun _ _ h => h.readAt⟩

end Walks

section Mirrors

variable [Libc] (text : Span) (style : MapStyle)

/--
The entries of a body were read from these declarations.
-/
inductive Mirrors : Decls → Outline → Prop where
  | nil : Mirrors .nil .nil
  | field {fld : FieldDecl} {rest : Decls} {e : MessageEntry} {o : Outline} (hfield : fld.ReadAs style e)
      (hrest : Mirrors rest o) : Mirrors (.field fld rest) (.entry (.inr e) o)
  | oneof {name : Name} {items : List OneofItem} {rest : Decls} {parsed : BodyParseResult} {es : List OneofEntry}
      {o : Outline} (hes : entries oneofNextEntry (bodyOf text parsed) = (es, none))
      (hitems : List.Forall₂ OneofItem.ReadAs items es) (hrest : Mirrors rest o)
      : Mirrors (.oneof name items rest) (.entry (.inr (.oneof parsed)) o)
  | enumeration {name : Name} {items : List EnumItem} {rest : Decls} {e : FileEntry ⊕ MessageEntry}
      {parsed : BodyParseResult} {es : List EnumEntry} {o : Outline} (he : enumOf e = some parsed)
      (hname : parsed.name = name.val) (hes : entries enumNextEntry (bodyOf text parsed) = (es, none))
      (hitems : List.Forall₂ EnumItem.ReadAs items es) (hrest : Mirrors rest o)
      : Mirrors (.enumeration name items rest) (.entry e o)
  | option {opt : OptionDecl} {rest : Decls} {parsed : OptionParseResult} {o : Outline}
      (hkept : opt.value.Whole) (hrest : Mirrors rest o)
      : Mirrors (.option opt rest) (.entry (.inr (.option parsed)) o)
  | reserved {res : ReservedDecl} {rest : Decls} {parsed : ReservedParseResult} {o : Outline}
      (hkept : res.Kept) (hrest : Mirrors rest o) : Mirrors (.reserved res rest) (.entry (.inr (.reserved parsed)) o)
  | message {name : Name} {body rest : Decls} {parsed : BodyParseResult} {inner o : Outline}
      (hname : parsed.name = name.val) (hbody : Mirrors body inner) (hrest : Mirrors rest o)
      : Mirrors (.message name body rest) (.message parsed inner o)

variable {text style}

theorem enum_walks {name : Name} {items : List EnumItem} {start : Nat} {b' : Buffer} {parsed : BodyParseResult}
    (hrun : enumParse.run (between text start text.length) = (.ok parsed, b'))
    (h : Taken enumEntry (fun item : EnumItem => spaced item.tokens) name items (between text start text.length) b'
      parsed)
    : ∃ es, entries enumNextEntry (bodyOf text parsed) = (es, none) ∧ List.Forall₂ EnumItem.ReadAs items es := by
  obtain ⟨es, hes, hread⟩ := h.walks itemized_enumEntry enumNextEntry_eq enumParse_body hrun
  exact ⟨es, hes, hread.imp fun item _ h => h.of_reads (enumItem_outcome item)⟩

theorem oneof_walks {name : Name} {items : List OneofItem} {start : Nat} {b' : Buffer} {parsed : BodyParseResult}
    (hrun : oneofParse.run (between text start text.length) = (.ok parsed, b'))
    (h : Taken oneofEntry (fun item : OneofItem => spaced item.tokens) name items (between text start text.length) b'
      parsed)
    : ∃ es, entries oneofNextEntry (bodyOf text parsed) = (es, none) ∧ List.Forall₂ OneofItem.ReadAs items es := by
  obtain ⟨es, hes, hread⟩ := h.walks itemized_oneofEntry oneofNextEntry_eq oneofParse_body hrun
  exact ⟨es, hes, hread.imp fun item _ h => h.of_reads (oneofItem_outcome item)⟩

theorem message_walks {name : Name} {body : Decls} {start : Nat} {b' : Buffer} {parsed : BodyParseResult}
    (hrun : messageParse.run (between text start text.length) = (.ok parsed, b'))
    (h : Taken messageEntry (memberText style) name body.members (between text start text.length) b' parsed)
    : ∃ es, bodyEntries text parsed = (es, none)
        ∧ List.Forall₂ (ReadAt text messageEntry (memberText style)) body.members es :=
  h.walks itemized_messageEntry messageNextEntry_eq messageParse_body hrun

omit [Libc] in
theorem ok_of_run {α : Type} {p : EntryParser α} {b b' c : Buffer} {a a' : α} (h : p.run b = (.ok a, b'))
    (h' : p.run b = (.ok a', c)) : a' = a := by
  rw [h, Prod.mk.injEq, Except.ok.injEq] at h'
  exact h'.1.symm

/--
The entries that were read where these members stand have an outline that goes with them.
-/
theorem exists_mirrors {decls : Decls} {es : List MessageEntry}
    (h : List.Forall₂ (ReadAt text messageEntry (memberText style)) decls.members es)
    : ∃ o, Outline.OfBody text es o ∧ Mirrors text style decls o := by
  induction decls generalizing es with
  | nil =>
    rw [Decls.members, List.forall₂_nil_left_iff] at h
    rw [h]
    exact ⟨.nil, .nil, .nil⟩
  | field fld rest ih =>
    obtain ⟨e, es, hread, hrest, rfl⟩ := List.forall₂_cons_left_iff.mp h
    obtain ⟨o, ho, hmirrors⟩ := ih hrest
    have hfield : fld.ReadAs style e := hread.of_reads (field_outcome style fld)
    refine ⟨.entry (.inr e) o, .entry ?_ ho, .field hfield hmirrors⟩
    rintro parsed rfl
    rcases hfield with ⟨-, parsed, heq, -⟩ | ⟨-, -, ⟨parsed, heq⟩ | ⟨parsed, heq, -⟩⟩ <;> simp at heq
  | oneof name items rest ih =>
    obtain ⟨e, es, ⟨start, b', hcovers, hrun⟩, hrest, rfl⟩ := List.forall₂_cons_left_iff.mp h
    obtain ⟨o, ho, hmirrors⟩ := ih hrest
    have hcovers : Covers _ (spaced (oneofTokens name items)) b' := hcovers
    obtain ⟨c, hhead⟩ := blockHead_run (spaced_oneof name items ▸ hcovers)
    rcases oneof_outcome hcovers with ⟨parsed, hparse, htaken⟩ | ⟨-, hnever⟩
    . obtain rfl := ok_of_run (oneof_run hhead hparse) hrun
      obtain ⟨inner, hinner, hitems⟩ := oneof_walks hparse htaken
      exact ⟨_, .entry (by simp) ho, .oneof hinner hitems hmirrors⟩
    . exact absurd hrun (never_oneof hhead hnever _ _)
  | enumeration name items rest ih =>
    obtain ⟨e, es, ⟨start, b', hcovers, hrun⟩, hrest, rfl⟩ := List.forall₂_cons_left_iff.mp h
    obtain ⟨o, ho, hmirrors⟩ := ih hrest
    have hcovers : Covers _ (spaced (enumTokens name items)) b' := hcovers
    obtain ⟨c, hhead⟩ := blockHead_run (spaced_enum name items ▸ hcovers)
    rcases enum_outcome hcovers with ⟨parsed, hparse, htaken⟩ | ⟨-, hnever⟩
    . obtain rfl := ok_of_run (enum_run hparse) hrun
      obtain ⟨inner, hinner, hitems⟩ := enum_walks hparse htaken
      exact ⟨_, .entry (by simp) ho, .enumeration rfl htaken.name hinner hitems hmirrors⟩
    . exact absurd hrun (never_enum hhead hnever _ _)
  | option opt rest ih =>
    obtain ⟨e, es, hread, hrest, rfl⟩ := List.forall₂_cons_left_iff.mp h
    obtain ⟨o, ho, hmirrors⟩ := ih hrest
    have hoption : opt.value.Whole ∧ ∃ parsed, e = .option parsed :=
      hread.of_reads (R := fun e => opt.value.Whole ∧ ∃ parsed, e = .option parsed) (option_outcome opt)
    obtain ⟨hkept, parsed, rfl⟩ := hoption
    exact ⟨_, .entry (by simp) ho, .option hkept hmirrors⟩
  | reserved res rest ih =>
    obtain ⟨e, es, hread, hrest, rfl⟩ := List.forall₂_cons_left_iff.mp h
    obtain ⟨o, ho, hmirrors⟩ := ih hrest
    have hreserved : res.Kept ∧ ∃ parsed, e = .reserved parsed :=
      hread.of_reads (R := fun e => res.Kept ∧ ∃ parsed, e = .reserved parsed) (reserved_outcome res)
    obtain ⟨hkept, parsed, rfl⟩ := hreserved
    exact ⟨_, .entry (by simp) ho, .reserved hkept hmirrors⟩
  | message name body rest ihbody ih =>
    obtain ⟨e, es, ⟨start, b', hcovers, hrun⟩, hrest, rfl⟩ := List.forall₂_cons_left_iff.mp h
    obtain ⟨o, ho, hmirrors⟩ := ih hrest
    have hcovers : Covers _ (spaced (blockTokens "message" name (body.tokens style))) b' := hcovers
    obtain ⟨c, hhead⟩ := blockHead_run (spaced_message style name body ▸ hcovers)
    rcases message_outcome (settled_members style body) hcovers with ⟨parsed, hparse, htaken⟩ | ⟨-, hnever⟩
    . obtain rfl := ok_of_run (message_run hhead hparse) hrun
      obtain ⟨inner, hinner, hmembers⟩ := message_walks hparse htaken
      obtain ⟨body', hbody', hmirrors'⟩ := ihbody hmembers
      exact ⟨_, .message hinner hbody' ho, .message htaken.name hmirrors' hmirrors⟩
    . exact absurd hrun (never_message hhead hnever _ _)

/--
The entries of a printed file have an outline that goes with its declarations.
-/
theorem exists_mirrors_file {decls : List FileDecl} {es : List FileEntry} {start : Nat}
    (h : List.Forall₂ (TakenIn style (between text start text.length)) decls es)
    : ∃ o, Outline.OfFile text es o ∧ Mirrors text style (ofFile decls) o := by
  induction h with
  | nil => exact ⟨.nil, .nil, .nil⟩
  | @cons decl e decls es htaken _ ih =>
    obtain ⟨o, ho, hmirrors⟩ := ih
    obtain ⟨b₁, b₂, hforward, htaken⟩ := htaken
    rw [hforward.eq_between] at htaken
    cases decl with
    | enumeration name items =>
      obtain ⟨parsed, rfl, hparse, htaken⟩ := htaken
      obtain ⟨inner, hinner, hitems⟩ := enum_walks hparse htaken
      exact ⟨_, .entry (by simp) ho, .enumeration rfl htaken.name hinner hitems hmirrors⟩
    | message name body =>
      obtain ⟨parsed, rfl, hparse, htaken⟩ := htaken
      obtain ⟨inner, hinner, hmembers⟩ := message_walks hparse htaken
      obtain ⟨body', hbody', hmirrors'⟩ := exists_mirrors hmembers
      exact ⟨_, .message hinner hbody' ho, .message htaken.name hmirrors' hmirrors⟩

end Mirrors

end Gremlin.Printer
