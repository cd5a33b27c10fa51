import Gremlin.Descriptors.Outline
import Gremlin.Descriptors.Names

/-!
This module contains the agreement of the counting and of the filling walk: what one counts is what
the other fills, in pre-order.
-/

namespace Gremlin

open Text Parser Memory

/-! The text of a body. -/

theorem length_between (text : Span) (start stop : Nat)
    : (Buffer.between text start stop).rest.length = min stop text.length - start := by
  simp [Buffer.between]

def bodyLength (text : Span) (parsed : BodyParseResult) : Nat :=
  (bodyOf text parsed).rest.length

theorem bodyLength_lt {text : Span} {start stop : Nat} {parsed : BodyParseResult}
    (h : Inside (Buffer.between text start stop) parsed)
    : bodyLength text parsed < (Buffer.between text start stop).rest.length := by
  obtain ⟨hstart, hle, hstop⟩ := h
  unfold bodyLength bodyOf
  rw [length_between] at hstop ⊢
  rw [length_between]
  have : (Buffer.between text start stop).offset = start := rfl
  omega

section Counting

variable [Libc] {text : Span}

theorem bodyEntries_shorter {parsed nested : BodyParseResult}
    (h : .message nested ∈ (bodyEntries text parsed).1)
    : bodyLength text nested < bodyLength text parsed := by
  apply bodyLength_lt
  exact entries_mem messageNextEntry_inside
    (fun _ _ _ hadvances h parsed heq => (h parsed heq).back hadvances) h nested rfl

theorem fileEntries_shorter {offset : Nat} {nested : BodyParseResult}
    (h : .message nested ∈ (fileEntries text offset).1)
    : bodyLength text nested < levels text := by
  have := bodyLength_lt (entries_mem fileNextEntry_inside (fun _ _ _ hadvances h parsed heq =>
    (h parsed heq).back hadvances) h nested rfl)
  rw [length_between] at this
  unfold levels
  omega

/-! The counting walk. -/

theorem Outline.OfBody.imports_eq_nil {es : List MessageEntry} {o : Outline} (h : o.OfBody text es)
    : o.imports = [] := by
  induction h with
  | nil => rfl
  | entry _ _ ih => simp [Outline.imports, importOf, ih]
  | message _ _ _ _ ih => simp [Outline.imports, ih]

theorem countBody_regular {nested : BodyParseResult → Counts → Except Stop Counts}
    {es : List MessageEntry}
    (hnested : ∀ parsed, .message parsed ∈ es → ∀ out, Regular (fun cnt => ∃ (inner : _) (o : Outline),
      bodyEntries text parsed = (inner, none) ∧ o.OfBody text inner ∧ cnt = out.plus o.counts)
      (nested parsed out)) (out : Counts)
    : Regular (fun cnt => ∃ o, Outline.OfBody text es o ∧ cnt = out.plus o.counts)
        (es.foldlM (countMessageEntry nested) out) := by
  induction es generalizing out with
  | nil => exact ⟨.nil, .nil, rfl⟩
  | cons e es ih =>
    rw [List.foldlM_cons]
    have hrest := ih fun parsed hmem => hnested parsed (List.mem_cons_of_mem _ hmem)
    cases e with
    | message parsed =>
      refine (hnested parsed List.mem_cons_self out.addMessage).bind ?_
      rintro _ ⟨inner, body, hinner, hbody, rfl⟩
      refine (hrest _).imp ?_
      rintro _ ⟨rest, hes, rfl⟩
      refine ⟨.message parsed body rest, .message hinner hbody hes, ?_⟩
      simp only [Counts.plus, Counts.addMessage, Outline.counts, Outline.imports, Outline.enumSize,
        Outline.size, hbody.imports_eq_nil, Counts.mk.injEq, List.length_nil]
      omega
    | enumeration parsed =>
      refine (hrest out.addEnum).imp ?_
      rintro _ ⟨rest, hes, rfl⟩
      refine ⟨.entry (.inr (.enumeration parsed)) rest, .entry (by simp) hes, ?_⟩
      simp [Counts.plus, Counts.addEnum, Outline.counts, Outline.imports, Outline.enumSize,
        Outline.size, importOf, enumOf, Nat.add_assoc]
    | oneof _ | option _ | extensions _ | reserved _ | extend _ | group | field _ =>
      refine (hrest out).imp ?_
      rintro _ ⟨rest, hes, rfl⟩
      exact ⟨.entry _ rest, .entry (by simp) hes, by
        simp [Counts.plus, Outline.counts, Outline.imports, Outline.enumSize, Outline.size,
          importOf, enumOf]⟩

theorem countMessageBody_regular {fuel : Nat} {parsed : BodyParseResult}
    (h : bodyLength text parsed < fuel) (out : Counts)
    : Regular (fun cnt => ∃ (es : _) (o : Outline), bodyEntries text parsed = (es, none)
        ∧ o.OfBody text es ∧ cnt = out.plus o.counts) (countMessageBody text fuel parsed out) := by
  induction fuel generalizing parsed out with
  | zero => omega
  | succ fuel ih =>
    rw [countMessageBody]
    have hshorter : ∀ nested, .message nested ∈ (bodyEntries text parsed).1
        → bodyLength text nested < fuel := by
      intro nested hmem
      have := bodyEntries_shorter hmem
      omega
    have hbody := countBody_regular (fun nested hmem out => ih (hshorter nested hmem) out) out
    refine (walk_regular eager_messageNextEntry hbody).imp ?_
    rintro cnt ⟨⟨o, ho, hcnt⟩, hend⟩
    exact ⟨_, o, Prod.ext rfl hend, ho, hcnt⟩

theorem countFile_regular {es : List FileEntry}
    (hes : ∀ parsed, .message parsed ∈ es → bodyLength text parsed < levels text) (out : Counts)
    : Regular (fun cnt => ∃ o, Outline.OfFile text es o ∧ cnt = out.plus o.counts)
        (es.foldlM (countFileEntry text) out) := by
  induction es generalizing out with
  | nil => exact ⟨.nil, .nil, rfl⟩
  | cons e es ih =>
    rw [List.foldlM_cons]
    have hrest := ih fun parsed hmem => hes parsed (List.mem_cons_of_mem _ hmem)
    cases e with
    | message parsed =>
      refine (countMessageBody_regular (hes parsed List.mem_cons_self) out.addMessage).bind ?_
      rintro _ ⟨inner, body, hinner, hbody, rfl⟩
      refine (hrest _).imp ?_
      rintro _ ⟨rest, hes, rfl⟩
      refine ⟨.message parsed body rest, .message hinner hbody hes, ?_⟩
      simp only [Counts.plus, Counts.addMessage, Outline.counts, Outline.imports, Outline.enumSize,
        Outline.size, hbody.imports_eq_nil, Counts.mk.injEq, List.length_nil]
      omega
    | enumeration parsed =>
      refine (hrest out.addEnum).imp ?_
      rintro _ ⟨rest, hes, rfl⟩
      refine ⟨.entry (.inl (.enumeration parsed)) rest, .entry (by simp) hes, ?_⟩
      simp [Counts.plus, Counts.addEnum, Outline.counts, Outline.imports, Outline.enumSize,
        Outline.size, importOf, enumOf, Nat.add_assoc]
    | importDef parsed =>
      refine (hrest out.addImport).imp ?_
      rintro _ ⟨rest, hes, rfl⟩
      refine ⟨.entry (.inl (.importDef parsed)) rest, .entry (by simp) hes, ?_⟩
      simp [Counts.plus, Counts.addImport, Outline.counts, Outline.imports, Outline.enumSize,
        Outline.size, importOf, enumOf, Nat.add_assoc, Nat.add_comm 1]
    | syntaxDef _ | edition _ | package _ | option _ | service | extend _ =>
      refine (hrest out).imp ?_
      rintro _ ⟨rest, hes, rfl⟩
      exact ⟨.entry _ rest, .entry (by simp) hes, by
        simp [Counts.plus, Outline.counts, Outline.imports, Outline.enumSize, Outline.size,
          importOf, enumOf]⟩

variable (text) in
/--
Where the counting walk ends well the text has an outline, and that is what is counted.
-/
theorem countEntries_regular (offset : Nat)
    : Regular (fun cnt => ∃ o, Outline.Of text offset o ∧ cnt = o.counts)
        (countEntries text offset) := by
  have hshorter : ∀ parsed, .message parsed ∈ (fileEntries text offset).1
      → bodyLength text parsed < levels text := fun parsed => fileEntries_shorter
  have hfile := countFile_regular hshorter .zero
  refine (walk_regular eager_fileNextEntry hfile).imp ?_
  rintro cnt ⟨⟨o, ho, rfl⟩, hend⟩
  exact ⟨o, ⟨_, Prod.ext rfl hend, ho⟩, by simp [Counts.plus, Counts.zero]⟩

end Counting

/-! The filling walk. -/

def MessageNode.slot (m : MessageNode) : MessageSlot :=
  ⟨m.parsed, m.parent, Slots.filled m.fields 0⟩

def EnumNode.slot (en : EnumNode) : EnumSlot :=
  ⟨en.parsed, en.parent, Slots.filled en.values 0⟩

/--
The state where these descriptors are filled and so many slots are left.
-/
def FillState.filled (file : FileNode) (imports : List ImportNode) (enums : List EnumNode)
    (messages : List MessageNode) (left : Counts) : FillState where
  file := file
  imports := Slots.filled imports left.imports
  enums := Slots.filled (enums.map EnumNode.slot) left.enums
  messages := Slots.filled (messages.map MessageNode.slot) left.messages
  importIdx := imports.length
  enumIdx := enums.length
  msgIdx := messages.length

section FillState

variable {file : FileNode} {imports : List ImportNode} {enums : List EnumNode}
  {messages : List MessageNode} {left : Counts}

theorem FillState.putImport_filled (parsed : ImportParseResult)
    : (filled file imports enums messages left.addImport).putImport parsed
        = .ok (filled file (imports ++ [⟨parsed, none⟩]) enums messages left) := by
  have hput := Slots.put_filled imports left.imports ⟨parsed, none⟩
  simp only [putImport, filled, Counts.addImport, hput, orOverrun, List.length_append,
    List.length_singleton]
  rfl

theorem FillState.putEnum_filled (parsed : BodyParseResult) (parent : Option Nat)
    : (filled file imports enums messages left.addEnum).putEnum parsed parent
        = .ok (filled file imports (enums ++ [⟨parsed, [], parent, .unset⟩]) messages left) := by
  have hput := Slots.put_filled (enums.map EnumNode.slot) left.enums ⟨parsed, parent, []⟩
  rw [List.length_map] at hput
  simp only [putEnum, filled, Counts.addEnum, hput, orOverrun, List.length_append,
    List.length_singleton, List.map_append]
  rfl

theorem FillState.setValues_filled (en : EnumNode) (values : List EnumFieldParseResult)
    : (filled file imports (enums ++ [en]) messages left).setValues enums.length
          (Slots.filled values 0)
        = .ok (filled file imports (enums ++ [{ en with values }]) messages left) := by
  have hmodify := Slots.modify_filled (enums.map EnumNode.slot) [] en.slot left.enums
    fun en => { en with values := Slots.filled values 0 }
  rw [List.length_map] at hmodify
  simp only [setValues, filled, List.map_append, List.map_singleton, hmodify, orOverrun,
    List.length_append, List.length_singleton]
  rfl

theorem FillState.putMessage_filled (parsed : BodyParseResult) (parent : Option Nat)
    : (filled file imports enums messages left.addMessage).putMessage parsed parent
        = .ok (filled file imports enums (messages ++ [⟨parsed, [], parent, .unset⟩]) left) := by
  have hput := Slots.put_filled (messages.map MessageNode.slot) left.messages ⟨parsed, parent, []⟩
  rw [List.length_map] at hput
  simp only [putMessage, filled, Counts.addMessage, hput, orOverrun, List.length_append,
    List.length_singleton, List.map_append]
  rfl

theorem FillState.setFields_filled (m : MessageNode) (after : List MessageNode)
    (fields : List FieldNode)
    : (filled file imports enums (messages ++ m :: after) left).setFields messages.length
          (Slots.filled fields 0)
        = .ok (filled file imports enums (messages ++ { m with fields } :: after) left) := by
  have hmodify := Slots.modify_filled (messages.map MessageNode.slot) (after.map MessageNode.slot)
    m.slot left.messages fun m => { m with fields := Slots.filled fields 0 }
  rw [List.length_map] at hmodify
  simp only [setFields, filled, List.map_append, List.map_cons, hmodify, orOverrun,
    List.length_append, List.length_cons]
  rfl

end FillState

/--
The state in the body of a message where these fields of it are filled too, and `k` are left.
-/
def FieldState.filled (state : FillState) (fields : List FieldNode) (k : Nat) : FieldState :=
  ⟨state, Slots.filled fields k, fields.length⟩

theorem FieldState.putField_filled {file : FileNode} {imports : List ImportNode}
    {enums : List EnumNode} {messages : List MessageNode} {left : Counts}
    (fields : List FieldNode) (k : Nat) (fld : FieldNode)
    : (filled (.filled file imports enums messages left) fields (k + 1)).putField fld
        = .ok (filled (.filled (hoistCodegenHints file fld) imports enums messages left)
            (fields ++ [fld]) k) := by
  have hput := Slots.put_filled fields k fld
  simp only [putField, filled, hput, orOverrun, List.length_append, List.length_singleton]
  rfl

theorem foldlM_countValue (es : List EnumEntry) (n : Nat)
    : es.foldlM countValue n = .ok (n + (es.filterMap enumValue).length) := by
  induction es generalizing n with
  | nil => rfl
  | cons e es ih =>
    rw [List.foldlM_cons]
    cases e with
    | field value =>
      rw [List.filterMap_cons_some (by rfl), List.length_cons, Nat.add_comm _ 1, ← Nat.add_assoc]
      exact ih (n + 1)
    | option _ | reserved _ => exact ih n

theorem foldlM_fillValue (es : List EnumEntry) (values : List EnumFieldParseResult) (k : Nat)
    : es.foldlM fillValue (Slots.filled values (k + (es.filterMap enumValue).length), values.length)
        = .ok (Slots.filled (values ++ es.filterMap enumValue) k,
            (values ++ es.filterMap enumValue).length) := by
  induction es generalizing values with
  | nil =>
    rw [List.filterMap_nil, List.append_nil]
    rfl
  | cons e es ih =>
    rw [List.foldlM_cons]
    cases e with
    | field value =>
      have hput := Slots.put_filled values (k + (es.filterMap enumValue).length) value
      have hrest := ih (values ++ [value])
      rw [List.append_assoc, List.singleton_append] at hrest
      rw [List.filterMap_cons_some (by rfl), List.length_cons, ← Nat.add_assoc]
      simp only [fillValue, hput, orOverrun]
      rw [show (values ++ [value]).length = values.length + 1 by simp] at hrest
      exact hrest
    | option _ | reserved _ => exact ih values

theorem foldlM_countOneofEntry (es : List OneofEntry) (n : Nat)
    : es.foldlM countOneofEntry n = .ok (n + (es.filterMap oneofMember).length) := by
  induction es generalizing n with
  | nil => rfl
  | cons e es ih =>
    rw [List.foldlM_cons]
    cases e with
    | field fld =>
      rw [List.filterMap_cons_some (by rfl), List.length_cons, Nat.add_comm _ 1, ← Nat.add_assoc]
      exact ih (n + 1)
    | option _ => exact ih n

section Counts

variable {e : FileEntry ⊕ MessageEntry} (left : Counts) (rest : Outline)

theorem Counts.plus_entry (henum : enumOf e = none) (himport : importOf e = none)
    : left.plus (Outline.entry e rest).counts = left.plus rest.counts := by
  simp [plus, Outline.counts, Outline.imports, Outline.enumSize, Outline.size, henum, himport]

theorem Counts.plus_enumeration {parsed : BodyParseResult} (henum : enumOf e = some parsed)
    (himport : importOf e = none)
    : left.plus (Outline.entry e rest).counts = (left.plus rest.counts).addEnum := by
  simp [plus, addEnum, Outline.counts, Outline.imports, Outline.enumSize, Outline.size, henum,
    himport, Nat.add_assoc, Nat.add_comm 1]

theorem Counts.plus_import {parsed : ImportParseResult} (henum : enumOf e = none)
    (himport : importOf e = some parsed)
    : left.plus (Outline.entry e rest).counts = (left.plus rest.counts).addImport := by
  simp [plus, addImport, Outline.counts, Outline.imports, Outline.enumSize, Outline.size, henum,
    himport, Nat.add_assoc]

end Counts

section Filling

variable [Libc] {text : Span} {file : FileNode} {imports : List ImportNode} {enums : List EnumNode}
  {messages : List MessageNode} {left : Counts}

theorem foldlM_fillOneofEntry (es : List OneofEntry) (stop : Nat) (file : FileNode)
    (fields : List FieldNode) (k : Nat)
    : es.foldlM (fillOneofEntry text stop) (.filled (.filled file imports enums messages left)
            fields (k + (es.filterMap oneofMember).length))
        = .ok (.filled (.filled
              (((es.filterMap oneofMember).map (fieldNode text stop)).foldl hoistCodegenHints file)
              imports enums messages left)
            (fields ++ (es.filterMap oneofMember).map (fieldNode text stop)) k) := by
  induction es generalizing file fields with
  | nil =>
    rw [List.filterMap_nil, List.map_nil, List.append_nil]
    rfl
  | cons e es ih =>
    rw [List.foldlM_cons]
    cases e with
    | field fld =>
      rw [List.filterMap_cons_some (by rfl), List.length_cons, ← Nat.add_assoc, fillOneofEntry,
        FieldState.putField_filled]
      have hrest := ih (hoistCodegenHints file (fieldNode text stop (oneofField fld)))
        (fields ++ [fieldNode text stop (oneofField fld)])
      rw [List.append_assoc, List.singleton_append] at hrest
      exact hrest
    | option _ => exact ih file fields

theorem countValues_regular (parsed : BodyParseResult)
    : Regular (fun n => n = (valuesOf text parsed).length
          ∧ (entries enumNextEntry (bodyOf text parsed)).2 = none) (countValues text parsed) := by
  have hfold : Regular (fun n => n = (valuesOf text parsed).length)
      ((entries enumNextEntry (bodyOf text parsed)).1.foldlM countValue 0) := by
    rw [foldlM_countValue]
    exact Nat.zero_add _
  exact walk_regular eager_enumNextEntry hfold

theorem fillValues_regular (parsed : BodyParseResult)
    : Regular (fun s => s.1 = Slots.filled (valuesOf text parsed) 0)
        (fillValues text parsed (valuesOf text parsed).length) := by
  have hfold : Regular (fun s => s.1 = Slots.filled (valuesOf text parsed) 0)
      ((entries enumNextEntry (bodyOf text parsed)).1.foldlM fillValue
        (Slots.allot _ (valuesOf text parsed).length, 0)) := by
    have := foldlM_fillValue (entries enumNextEntry (bodyOf text parsed)).1 [] 0
    rw [Nat.zero_add, List.nil_append] at this
    unfold valuesOf
    rw [Slots.allot_eq_filled, show 0 = ([] : List EnumFieldParseResult).length from rfl, this]
    rfl
  exact (walk_regular eager_enumNextEntry hfold).imp fun _ h => h.1

theorem fillEnum_regular (parsed : BodyParseResult) (parent : Option Nat)
    : Regular (fun state => state = .filled file imports
            (enums ++ [⟨parsed, valuesOf text parsed, parent, .unset⟩]) messages left
          ∧ (entries enumNextEntry (bodyOf text parsed)).2 = none)
        (fillEnum text parsed parent (.filled file imports enums messages left.addEnum)) := by
  unfold fillEnum
  rw [FillState.putEnum_filled]
  refine (countValues_regular parsed).bind ?_
  rintro n ⟨rfl, hend⟩
  split
  . next hnil =>
    rw [List.length_eq_zero_iff] at hnil
    rw [hnil]
    exact ⟨rfl, hend⟩
  . refine (fillValues_regular parsed).bind ?_
    rintro ⟨values, idx⟩ hvalues
    dsimp only at hvalues ⊢
    have hset : (FillState.filled file imports (enums ++ [⟨parsed, [], parent, .unset⟩]) messages
        left).setValues enums.length (Slots.filled (valuesOf text parsed) 0) = _ :=
      FillState.setValues_filled _ _
    rw [hvalues]
    exact hset ▸ ⟨rfl, hend⟩

theorem countFields_fold {es : List MessageEntry} {o : Outline} (ho : o.OfBody text es)
    (stop n : Nat)
    : Regular (fun n' => n' = n + (o.fields text stop).length)
        (es.foldlM (countFieldEntry text) n) := by
  induction ho generalizing n with
  | nil => rfl
  | @entry e es rest he hrest ih =>
    rw [List.foldlM_cons, Outline.fields, List.length_append, ← Nat.add_assoc]
    cases e with
    | field _ => exact ih (n + 1)
    | oneof parsed =>
      have hfold : Regular (fun n' => n' = n + (membersOf text parsed).length)
          ((entries oneofNextEntry (bodyOf text parsed)).1.foldlM countOneofEntry n) := by
        rw [foldlM_countOneofEntry]
        rfl
      refine (walk_regular eager_oneofNextEntry hfold).bind ?_
      rintro _ ⟨rfl, -⟩
      rw [entryFields, List.length_map]
      exact ih _
    | message parsed => exact absurd rfl (he parsed)
    | enumeration _ | option _ | extensions _ | reserved _ | extend _ | group => exact ih n
  | message _ _ _ _ ih =>
    rw [List.foldlM_cons]
    exact ih n

theorem countFields_regular {parsed : BodyParseResult} {inner : List MessageEntry} {body : Outline}
    (hinner : bodyEntries text parsed = (inner, none)) (hbody : body.OfBody text inner)
    : Regular (fun n => n = (body.fields text parsed.bodyEnd).length)
        (countFields text parsed) := by
  have hfold := countFields_fold hbody parsed.bodyEnd 0
  have hentries : inner = (entries messageNextEntry (bodyOf text parsed)).1 :=
    (congrArg Prod.fst hinner).symm
  rw [hentries, Nat.zero_add] at hfold
  exact (walk_regular eager_messageNextEntry hfold).imp fun _ h => h.1

theorem fillOneof_regular (parsed : BodyParseResult) (fields : List FieldNode) (k : Nat)
    : Regular (fun s => s = .filled (.filled
            (((membersOf text parsed).map (fieldNode text parsed.bodyEnd)).foldl hoistCodegenHints file)
            imports enums messages left)
          (fields ++ (membersOf text parsed).map (fieldNode text parsed.bodyEnd)) k
          ∧ (entries oneofNextEntry (bodyOf text parsed)).2 = none)
        (walk oneofNextEntry (fillOneofEntry text parsed.bodyEnd) (bodyOf text parsed)
          (.filled (.filled file imports enums messages left) fields
            (k + (membersOf text parsed).length))) := by
  refine walk_regular eager_oneofNextEntry ?_
  unfold membersOf
  rw [foldlM_fillOneofEntry]
  rfl

/--
A message in a body is filled as its outline says.
-/
def Fills (text : Span)
    (nested : BodyParseResult → Option Nat → FillState → Except Stop FillState)
    (parsed : BodyParseResult) (body : Outline) : Prop :=
  ∀ file imports enums messages left parent,
    Regular (fun state => state = .filled (body.head text parsed.bodyEnd file) imports
        (enums ++ body.enums text (some messages.length) (messages.length + 1))
        (messages ++ ⟨parsed, body.fields text parsed.bodyEnd, parent, .unset⟩
          :: body.messages text (some messages.length) (messages.length + 1)) left
        ∧ body.Complete text)
      (nested parsed parent
        (.filled file imports enums messages (left.plus body.counts).addMessage))

theorem Counts.plus_message (left : Counts) {inner : List MessageEntry} {body : Outline}
    (hbody : body.OfBody text inner) (parsed : BodyParseResult) (rest : Outline)
    : left.plus (Outline.message parsed body rest).counts
        = ((left.plus rest.counts).plus body.counts).addMessage := by
  simp only [plus, addMessage, Outline.counts, Outline.imports, Outline.enumSize, Outline.size,
    hbody.imports_eq_nil, List.length_nil, Counts.mk.injEq]
  omega

variable (imports left) in
theorem fillBody_regular
    {nested : BodyParseResult → Option Nat → FillState → Except Stop FillState}
    {es : List MessageEntry} {o : Outline} (ho : o.OfBody text es)
    (hnested : ∀ parsed, .message parsed ∈ es → ∀ inner body,
      bodyEntries text parsed = (inner, none) → body.OfBody text inner → Fills text nested parsed body)
    (out stop : Nat) (file : FileNode) (enums : List EnumNode) (messages : List MessageNode)
    (fields : List FieldNode) (k : Nat)
    : Regular (fun s => s = .filled (.filled (o.head text stop file) imports
            (enums ++ o.enums text (some out) messages.length)
            (messages ++ o.messages text (some out) messages.length) left)
          (fields ++ o.fields text stop) k ∧ o.Complete text)
        (es.foldlM (fillMessageEntry text nested out stop)
          (.filled (.filled file imports enums messages (left.plus o.counts)) fields
            (k + (o.fields text stop).length))) := by
  induction ho generalizing file enums messages fields with
  | nil =>
    simp only [Outline.head, Outline.enums, Outline.messages, Outline.fields, List.append_nil]
    exact ⟨rfl, trivial⟩
  | @entry e es rest he hrest ih =>
    rw [List.foldlM_cons]
    have ih := ih fun parsed hmem => hnested parsed (List.mem_cons_of_mem _ hmem)
    cases e with
    | field parsed =>
      -- `k` slots stay free behind those of the entries that are still to come.
      have hlength : k + ((Outline.entry (.inr (.field parsed)) rest).fields text stop).length
          = k + (rest.fields text stop).length + 1 := by
        simp [Outline.fields, entryFields, Nat.add_assoc]
      rw [hlength, Counts.plus_entry left rest (by rfl) (by rfl), fillMessageEntry, FieldState.putField_filled]
      have hrest := ih (hoistCodegenHints file (fieldNode text stop parsed)) enums messages
        (fields ++ [fieldNode text stop parsed])
      rw [List.append_assoc] at hrest
      exact hrest.imp fun _ h => ⟨h.1, ⟨by simp [enumOf], by simp⟩, h.2⟩
    | oneof parsed =>
      have hlength : k + ((Outline.entry (.inr (.oneof parsed)) rest).fields text stop).length
          = k + (rest.fields text stop).length + (membersOf text parsed).length := by
        simp only [Outline.fields, entryFields, List.length_append, List.length_map]
        omega
      rw [hlength, Counts.plus_entry left rest (by rfl) (by rfl), fillMessageEntry]
      refine (fillOneof_regular parsed fields _).bind ?_
      rintro _ ⟨rfl, hend⟩
      have hrest := ih (((membersOf text parsed).map (fieldNode text parsed.bodyEnd)).foldl
        hoistCodegenHints file) enums messages
        (fields ++ (membersOf text parsed).map (fieldNode text parsed.bodyEnd))
      rw [List.append_assoc] at hrest
      exact hrest.imp fun _ h => ⟨h.1, ⟨by simp [enumOf], by simpa using hend⟩, h.2⟩
    | enumeration parsed =>
      rw [Counts.plus_enumeration left rest (by rfl) (by rfl)]
      have hentry : Regular (fun s => s = .filled (.filled file imports
              (enums ++ [⟨parsed, valuesOf text parsed, some out, .unset⟩]) messages
              (left.plus rest.counts)) fields (k + (rest.fields text stop).length)
            ∧ (entries enumNextEntry (bodyOf text parsed)).2 = none)
          (fillMessageEntry text nested out stop (.filled (.filled file imports enums messages
              (left.plus rest.counts).addEnum) fields (k + (rest.fields text stop).length))
            (.enumeration parsed)) := by
        refine (fillEnum_regular parsed (some out)).bind ?_
        rintro _ ⟨rfl, hend⟩
        exact ⟨rfl, hend⟩
      refine hentry.bind ?_
      rintro _ ⟨rfl, hend⟩
      have hrest := ih file (enums ++ [⟨parsed, valuesOf text parsed, some out, .unset⟩]) messages
        fields
      rw [List.append_assoc] at hrest
      exact hrest.imp fun _ h => ⟨h.1, ⟨by simpa [enumOf] using hend, by simp⟩, h.2⟩
    | message parsed => exact absurd rfl (he parsed)
    | option _ | extensions _ | reserved _ | extend _ | group =>
      rw [Counts.plus_entry left rest (by rfl) (by rfl)]
      exact (ih file enums messages fields).imp
        fun _ h => ⟨h.1, ⟨by simp [enumOf], by simp⟩, h.2⟩
  | @message parsed inner es body rest hinner hbody hrest _ ih =>
    rw [List.foldlM_cons, Counts.plus_message left hbody]
    -- The message is put before its body is filled, so the body has the message as its owner.
    have hentry : Regular (fun s => s = .filled (.filled (body.head text parsed.bodyEnd file) imports
            (enums ++ body.enums text (some messages.length) (messages.length + 1))
            (messages ++ ⟨parsed, body.fields text parsed.bodyEnd, some out, .unset⟩
              :: body.messages text (some messages.length) (messages.length + 1))
            (left.plus rest.counts)) fields (k + (rest.fields text stop).length)
          ∧ body.Complete text)
        (fillMessageEntry text nested out stop (.filled (.filled file imports enums messages
            ((left.plus rest.counts).plus body.counts).addMessage) fields
            (k + (rest.fields text stop).length)) (.message parsed)) := by
      refine (hnested parsed List.mem_cons_self inner body hinner hbody file imports enums messages
        (left.plus rest.counts) (some out)).bind ?_
      rintro _ ⟨rfl, hcomplete⟩
      exact ⟨rfl, hcomplete⟩
    refine hentry.bind ?_
    rintro _ ⟨rfl, hcomplete⟩
    have hrest := ih (fun parsed hmem => hnested parsed (List.mem_cons_of_mem _ hmem))
      (body.head text parsed.bodyEnd file)
      (enums ++ body.enums text (some messages.length) (messages.length + 1))
      (messages ++ ⟨parsed, body.fields text parsed.bodyEnd, some out, .unset⟩
        :: body.messages text (some messages.length) (messages.length + 1)) fields
    have hlength : (messages ++ ⟨parsed, body.fields text parsed.bodyEnd, some out, .unset⟩
        :: body.messages text (some messages.length) (messages.length + 1)).length
          = messages.length + 1 + body.size := by
      rw [List.length_append, List.length_cons, Outline.length_messages]
      omega
    rw [List.append_assoc, List.append_assoc, List.cons_append, hlength] at hrest
    exact hrest.imp fun _ h => ⟨h.1, hcomplete, h.2⟩

theorem fillMessage_regular {fuel : Nat} {parsed : BodyParseResult} {inner : List MessageEntry}
    {body : Outline} (hfuel : bodyLength text parsed < fuel)
    (hinner : bodyEntries text parsed = (inner, none)) (hbody : body.OfBody text inner)
    : Fills text (fillMessage text fuel) parsed body := by
  induction fuel generalizing parsed inner body with
  | zero => omega
  | succ fuel ih =>
    intro file imports enums messages left parent
    have hentries : inner = (entries messageNextEntry (bodyOf text parsed)).1 :=
      (congrArg Prod.fst hinner).symm
    rw [fillMessage, FillState.putMessage_filled]
    refine (countFields_regular hinner hbody).bind ?_
    rintro _ rfl
    have hnested : ∀ nested, .message nested ∈ inner → ∀ inner' body',
        bodyEntries text nested = (inner', none) → body'.OfBody text inner'
        → Fills text (fillMessage text fuel) nested body' := by
      intro nested hmem inner' body' hinner' hbody'
      refine ih ?_ hinner' hbody'
      have := bodyEntries_shorter (hentries ▸ hmem)
      omega
    have hfold := fillBody_regular imports left hbody hnested messages.length
      parsed.bodyEnd file enums (messages ++ [⟨parsed, [], parent, .unset⟩]) [] 0
    rw [hentries, Nat.zero_add] at hfold
    refine (walk_regular eager_messageNextEntry hfold).bind ?_
    rintro _ ⟨⟨rfl, hcomplete⟩, -⟩
    rw [List.length_append, List.length_singleton, List.append_assoc, List.singleton_append,
      List.nil_append]
    have hset : (FillState.filled (body.head text parsed.bodyEnd file) imports
        (enums ++ body.enums text (some messages.length) (messages.length + 1))
        (messages ++ ⟨parsed, [], parent, .unset⟩
          :: body.messages text (some messages.length) (messages.length + 1)) left).setFields
        messages.length (Slots.filled (body.fields text parsed.bodyEnd) 0) = _ :=
      FillState.setFields_filled _ _ _
    exact hset ▸ ⟨rfl, hcomplete⟩

/-! The file. -/

variable (left) in
theorem fillFile_fold {es : List FileEntry} {o : Outline} (ho : o.OfFile text es)
    (hes : ∀ parsed, .message parsed ∈ es → bodyLength text parsed < levels text)
    (stop : Nat) (file : FileNode) (imports : List ImportNode) (enums : List EnumNode)
    (messages : List MessageNode)
    : Regular (fun state => state = .filled (o.head text stop file) (imports ++ o.imports)
            (enums ++ o.enums text none messages.length)
            (messages ++ o.messages text none messages.length) left ∧ o.Complete text)
        (es.foldlM (fillFileEntry text)
          (.filled file imports enums messages (left.plus o.counts))) := by
  induction ho generalizing file imports enums messages with
  | nil =>
    simp only [Outline.head, Outline.imports, Outline.enums, Outline.messages, List.append_nil]
    exact ⟨rfl, trivial⟩
  -- An entry without a body changes one field of the file or appends to one of its lists.
  | @entry e es rest he hrest ih =>
    rw [List.foldlM_cons]
    have ih := ih fun parsed hmem => hes parsed (List.mem_cons_of_mem _ hmem)
    cases e with
    | syntaxDef parsed =>
      rw [Counts.plus_entry left rest (by rfl) (by rfl)]
      exact (ih { file with syntaxDef := some parsed } imports enums messages).imp
        fun _ h => ⟨h.1, ⟨by simp [enumOf], by simp⟩, h.2⟩
    | edition parsed =>
      rw [Counts.plus_entry left rest (by rfl) (by rfl)]
      exact (ih { file with edition := some parsed } imports enums messages).imp
        fun _ h => ⟨h.1, ⟨by simp [enumOf], by simp⟩, h.2⟩
    | package parsed =>
      rw [Counts.plus_entry left rest (by rfl) (by rfl)]
      exact (ih { file with package := some parsed } imports enums messages).imp
        fun _ h => ⟨h.1, ⟨by simp [enumOf], by simp⟩, h.2⟩
    | importDef parsed =>
      rw [Counts.plus_import left rest (by rfl) (by rfl), fillFileEntry, FillState.putImport_filled]
      have hrest := ih file (imports ++ [⟨parsed, none⟩]) enums messages
      rw [List.append_assoc] at hrest
      exact hrest.imp fun _ h => ⟨h.1, ⟨by simp [enumOf], by simp⟩, h.2⟩
    | enumeration parsed =>
      rw [Counts.plus_enumeration left rest (by rfl) (by rfl)]
      refine (fillEnum_regular parsed none).bind ?_
      rintro _ ⟨rfl, hend⟩
      have hrest := ih file imports (enums ++ [⟨parsed, valuesOf text parsed, none, .unset⟩]) messages
      rw [List.append_assoc] at hrest
      exact hrest.imp fun _ h => ⟨h.1, ⟨by simpa [enumOf] using hend, by simp⟩, h.2⟩
    | message parsed => exact absurd rfl (he parsed)
    | option _ | service | extend _ =>
      rw [Counts.plus_entry left rest (by rfl) (by rfl)]
      exact (ih file imports enums messages).imp
        fun _ h => ⟨h.1, ⟨by simp [enumOf], by simp⟩, h.2⟩
  | @message parsed inner es body rest hinner hbody hrest ih =>
    rw [List.foldlM_cons, Counts.plus_message left hbody]
    refine (fillMessage_regular (hes parsed List.mem_cons_self) hinner hbody file imports enums
      messages (left.plus rest.counts) none).bind ?_
    rintro _ ⟨rfl, hcomplete⟩
    have hrest := ih (fun parsed hmem => hes parsed (List.mem_cons_of_mem _ hmem))
      (body.head text parsed.bodyEnd file) imports
      (enums ++ body.enums text (some messages.length) (messages.length + 1))
      (messages ++ ⟨parsed, body.fields text parsed.bodyEnd, none, .unset⟩
        :: body.messages text (some messages.length) (messages.length + 1))
    have hlength : (messages ++ ⟨parsed, body.fields text parsed.bodyEnd, none, .unset⟩
        :: body.messages text (some messages.length) (messages.length + 1)).length
          = messages.length + 1 + body.size := by
      rw [List.length_append, List.length_cons, Outline.length_messages]
      omega
    rw [List.append_assoc, List.append_assoc, List.cons_append, hlength] at hrest
    exact hrest.imp fun _ h => ⟨h.1, hcomplete, h.2⟩

theorem fillFile_regular {offset : Nat} {o : Outline} (ho : o.Of text offset)
    : Regular (fun state => state = .filled (o.head text text.length .empty) o.imports
          (o.enums text none 0) (o.messages text none 0) .zero ∧ o.Complete text)
        (fillFile text offset (.allotted o.counts)) := by
  obtain ⟨es, hes, ho⟩ := ho
  have hentries : es = (fileEntries text offset).1 := (congrArg Prod.fst hes).symm
  have hshorter : ∀ parsed, .message parsed ∈ es → bodyLength text parsed < levels text := by
    rw [hentries]
    exact fun parsed => fileEntries_shorter
  have hfold := fillFile_fold .zero ho hshorter text.length .empty [] [] []
  have hallotted : FillState.filled .empty [] [] [] (Counts.plus .zero o.counts)
      = .allotted o.counts := by
    simp [FillState.filled, FillState.allotted, Slots.allot_eq_filled, Counts.plus, Counts.zero]
  rw [hallotted, hentries] at hfold
  exact (walk_regular eager_fileNextEntry hfold).imp fun _ h => h.1

end Filling

section Built

variable [Libc] {text : Span}

variable (text) in
theorem mapM_messages (o : Outline) (parent : Option Nat) (next : Nat)
    : ((o.messages text parent next).map MessageNode.slot).mapM MessageSlot.node
        = some (o.messages text parent next) := by
  induction o generalizing parent next with
  | nil => rfl
  | entry _ _ ih => exact ih parent next
  | message parsed body rest ihbody ihrest =>
    simp only [Outline.messages, List.map_cons, List.map_append, List.mapM_cons, List.mapM_append,
      ihbody, ihrest, MessageNode.slot, MessageSlot.node, Slots.contents_filled]
    rfl

variable (text) in
theorem mapM_enums (o : Outline) (parent : Option Nat) (next : Nat)
    : ((o.enums text parent next).map EnumNode.slot).mapM EnumSlot.node
        = some (o.enums text parent next) := by
  induction o generalizing parent next with
  | nil => rfl
  | entry e _ ih =>
    cases henum : enumOf e with
    | none =>
      simp only [Outline.enums, henum, Option.map_none, Option.toList_none, List.nil_append]
      exact ih parent next
    | some parsed =>
      simp only [Outline.enums, henum, Option.map_some, Option.toList_some, List.map_append,
        List.map_singleton, List.mapM_append, ih, List.mapM_cons, List.mapM_nil, EnumNode.slot,
        EnumSlot.node, Slots.contents_filled]
      rfl
  | message _ _ _ ihbody ihrest =>
    simp only [Outline.enums, List.map_append, List.mapM_append, ihbody, ihrest]
    rfl

theorem built_filled (o : Outline)
    : (FillState.filled (o.head text text.length .empty) o.imports (o.enums text none 0)
          (o.messages text none 0) .zero).built
        = some {
            o.head text text.length .empty with
            imports := o.imports
            enums := o.enums text none 0
            messages := o.messages text none 0
          } := by
  simp only [FillState.built, FillState.filled, Counts.zero, Slots.contents_filled]
  have hmessages := mapM_messages text o none 0
  have henums := mapM_enums text o none 0
  simp [hmessages, henums]

variable (text) in
theorem buildFile_regular (offset : Nat)
    : Regular (fun file => ∃ o, Outline.Of text offset o ∧ countEntries text offset = .ok o.counts
          ∧ o.Complete text ∧ file = o.file text) (buildFile text offset) := by
  unfold buildFile
  rcases (countEntries_regular text offset).cases with ⟨e, he⟩ | ⟨_, hcnt, o, ho, rfl⟩
  . rw [he]
    trivial
  . rw [hcnt]
    refine (fillFile_regular ho).bind ?_
    rintro _ ⟨rfl, hcomplete⟩
    rw [built_filled]
    exact ⟨o, ho, rfl, hcomplete, rfl⟩

theorem exists_outline {offset : Nat} {file : FileNode} (h : buildFile text offset = .ok file)
    : ∃ o, Outline.Of text offset o ∧ o.Complete text ∧ file = o.file text := by
  rcases (buildFile_regular text offset).cases with ⟨e, herror⟩ | ⟨_, hok, o, ho, -, hcomplete, rfl⟩
  . rw [h] at herror
    simp at herror
  . rw [h, Except.ok.injEq] at hok
    exact ⟨o, ho, hcomplete, hok⟩

theorem messages_parent (o : Outline) {parent : Option Nat} {next : Nat}
    (hparent : ∀ j, parent = some j → j < next) (i : Nat) (m : MessageNode)
    (hget : (o.messages text parent next)[i]? = some m) (j : Nat) (hj : m.parent = some j)
    : j < next + i := by
  induction o generalizing parent next i with
  | nil => simp [Outline.messages] at hget
  | entry _ _ ih => exact ih hparent i hget
  | message parsed body rest ihbody ihrest =>
    rw [Outline.messages] at hget
    cases i with
    | zero =>
      rw [List.getElem?_cons_zero, Option.some_inj] at hget
      subst hget
      exact hparent j hj
    | succ i =>
      rw [List.getElem?_cons_succ] at hget
      by_cases hi : i < body.size
      . rw [List.getElem?_append_left (by rwa [Outline.length_messages])] at hget
        have hnext : ∀ j, some next = some j → j < next + 1 := by simp
        have := ihbody hnext i hget
        omega
      . rw [List.getElem?_append_right (by rw [Outline.length_messages]; omega),
          Outline.length_messages] at hget
        have hnext : ∀ j, parent = some j → j < next + 1 + body.size := by
          intro j hj
          have := hparent j hj
          omega
        have := ihrest hnext (i - body.size) hget
        omega

theorem enums_parent (o : Outline) {parent : Option Nat} {next : Nat}
    (hparent : ∀ j, parent = some j → j < next) (en : EnumNode)
    (hmem : en ∈ o.enums text parent next) (j : Nat) (hj : en.parent = some j)
    : j < next + o.size := by
  induction o generalizing parent next with
  | nil => simp [Outline.enums] at hmem
  | entry e rest ih =>
    simp only [Outline.enums, List.mem_append, Option.mem_toList,
      Option.map_eq_some_iff] at hmem
    rw [Outline.size]
    rcases hmem with ⟨parsed, -, rfl⟩ | hmem
    . have := hparent j hj
      omega
    . exact ih hparent hmem
  | message parsed body rest ihbody ihrest =>
    rw [Outline.enums, List.mem_append] at hmem
    rw [Outline.size]
    rcases hmem with hmem | hmem
    . have hnext : ∀ j, some next = some j → j < next + 1 := by simp
      have := ihbody hnext hmem
      omega
    . have hnext : ∀ j, parent = some j → j < next + 1 + body.size := by
        intro j hj
        have := hparent j hj
        omega
      have := ihrest hnext hmem
      omega

theorem Outline.file_nested (o : Outline) : (o.file text).Nested := by
  constructor
  . intro i m hget j hj
    simp only [Outline.file, resolvePacking, List.getElem?_map, Option.map_eq_some_iff] at hget
    obtain ⟨m', hget, rfl⟩ := hget
    have := messages_parent o (by simp) i m' hget j hj
    omega
  . intro en hmem j hj
    have := enums_parent o (by simp) en hmem j hj
    simp only [Outline.file, resolvePacking, List.length_map, length_messages]
    omega

/--
The builder yields an error of the parser, or the file that the outline of the text says: the
messages and the enums in pre-order, each behind its parent, and the fields of a message in the order
of the source. It never writes outside of what was counted and leaves nothing of that unwritten.
-/
theorem buildFile_fills (text : Span) (offset : Nat)
    : (∃ e, buildFile text offset = .error (.error e))
        ∨ ∃ file o, buildFile text offset = .ok file ∧ Outline.Of text offset o ∧ o.Complete text
            ∧ file = o.file text
            ∧ countEntries text offset
              = .ok ⟨file.imports.length, file.enums.length, file.messages.length⟩
            ∧ file.Nested := by
  rcases (buildFile_regular text offset).cases with herror | ⟨_, hok, o, ho, hcnt, hcomplete, rfl⟩
  . exact .inl herror
  . refine .inr ⟨_, o, hok, ho, hcomplete, rfl, ?_, o.file_nested⟩
    rw [hcnt]
    simp [Outline.file, resolvePacking, Outline.counts, Outline.length_messages,
      Outline.length_enums]

end Built

end Gremlin
