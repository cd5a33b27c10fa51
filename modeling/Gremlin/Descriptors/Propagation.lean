import Gremlin.Descriptors.Extend

/-!
This module contains the extend blocks of the sources and what the pass over them does.
-/

namespace Gremlin

open Text Parser Memory

def extendOf : FileEntry ⊕ MessageEntry → Option ExtendParseResult
  | .inl (.extend parsed) => some parsed
  | .inr (.extend parsed) => some parsed
  | _ => none

/--
The blocks in the order of the text, each with the message that it is in and the end of its body.
-/
def Outline.extends (parent : Option Nat) (next stop : Nat)
    : Outline → List (Option Nat × Nat × ExtendParseResult)
  | .nil => []
  | .entry e rest =>
    ((extendOf e).map fun parsed => (parent, stop, parsed)).toList ++ rest.extends parent next stop
  | .message parsed body rest =>
    body.extends (some next) (next + 1) parsed.bodyEnd
      ++ rest.extends parent (next + 1 + body.size) stop

namespace Pool

/-! What is appended. -/

def append (p : Pool) (t : NodeId) (fields : List FieldNode) : Pool :=
  p.update t.file fun file =>
    {
      file with
      messages := file.messages.modify t.index fun m => { m with fields := m.fields ++ fields }
    }

/--
Files that differ in the fields of their messages only.
-/
structure Keeps (p q : Pool) : Prop where
  files : q.files = p.files
  rest : ∀ f, { q.heap f with messages := (p.heap f).messages } = p.heap f
  names : ∀ f, (q.heap f).messages.map MessageNode.scopedName
    = (p.heap f).messages.map MessageNode.scopedName

theorem Keeps.refl (p : Pool) : Keeps p p :=
  ⟨rfl, fun _ => rfl, fun _ => rfl⟩

variable {p q : Pool}

theorem Keeps.visible (h : Keeps p q) (f : FileId) : (q.heap f).visible = (p.heap f).visible := by
  have := congrArg FileNode.visible (h.rest f)
  exact this

theorem Keeps.package (h : Keeps p q) (f : FileId) : (q.heap f).package = (p.heap f).package := by
  have := congrArg FileNode.package (h.rest f)
  exact this

theorem Keeps.fieldPacking (h : Keeps p q) (f : FileId)
    : fieldPacking (q.heap f) = fieldPacking (p.heap f) := by
  have hdef := congrArg FileNode.syntaxDef (h.rest f)
  have hedition := congrArg FileNode.edition (h.rest f)
  dsimp only at hdef hedition
  funext opt
  simp only [Gremlin.fieldPacking, hdef, hedition]

theorem Keeps.getElem? (h : Keeps p q) {f : FileId} {i : Nat} {m : MessageNode}
    (hget : (p.heap f).messages[i]? = some m)
    : ∃ m', (q.heap f).messages[i]? = some m' ∧ m'.scopedName = m.scopedName := by
  have := congrArg (fun l => l[i]?) (h.names f)
  simp only [List.getElem?_map, hget, Option.map_some, Option.map_eq_some_iff] at this
  exact this

theorem Keeps.append (h : Keeps p q) (t : NodeId) (fields : List FieldNode)
    : Keeps p (q.append t fields) := by
  refine ⟨h.files, ?_, ?_⟩
  . intro f
    rw [← h.rest f]
    by_cases hf : f = t.file
    . subst hf
      simp [Pool.append]
    . rw [Pool.append, update_heap_of_ne hf]
  . intro f
    rw [← h.names f]
    by_cases hf : f = t.file
    . subst hf
      rw [Pool.append, update_heap_self]
      apply List.ext_getElem?
      intro i
      simp only [List.getElem?_map, List.getElem?_modify]
      split
      . cases (q.heap t.file).messages[i]? <;> rfl
      . cases (q.heap t.file).messages[i]? <;> rfl
    . rw [Pool.append, update_heap_of_ne hf]

theorem Keeps.lookupMessage (h : Keeps p q) : q.lookupMessage = p.lookupMessage := by
  have hfind (file : FileNode) (target : ScopedName)
      : (file.messages.findIdx? fun m => m.scopedName.eq target)
        = (file.messages.map MessageNode.scopedName).findIdx? fun name => name.eq target := by
    rw [List.findIdx?_map]
    rfl
  funext visible target
  unfold Pool.lookupMessage
  congr 1
  funext f
  rw [hfind, hfind, h.names]

theorem Keeps.resolveExtendTarget (h : Keeps p q) : q.resolveExtendTarget = p.resolveExtendTarget := by
  have hpeel (scope : ScopedName) (visible : List FileId) (ref : ScopedName) (k : Nat)
      : q.peelMessage scope visible ref k = p.peelMessage scope visible ref k := by
    induction k with
    | zero => rfl
    | succ k ih => simp only [peelMessage, h.lookupMessage, ih]
  funext scope visible span
  simp only [Pool.resolveExtendTarget, h.lookupMessage, hpeel]

theorem setFields_eq_append {t : NodeId} {m : MessageNode} (fields : List FieldNode)
    (hget : (p.heap t.file).messages[t.index]? = some m)
    : p.setFields t (m.fields ++ fields) = p.append t fields := by
  have hmodify : ((p.heap t.file).messages.modify t.index
        fun m' => { m' with fields := m.fields ++ fields })
      = (p.heap t.file).messages.modify t.index
        fun m' => { m' with fields := m'.fields ++ fields } := by
    apply List.ext_getElem?
    intro i
    simp only [List.getElem?_modify]
    split
    . next hi =>
      subst hi
      rw [hget]
      rfl
    . rfl
  unfold setFields append update
  dsimp only
  rw [hmodify]

theorem append_nil (t : NodeId) : p.append t [] = p := by
  have hid : (fun m : MessageNode => { m with fields := m.fields ++ [] }) = id := by
    funext m
    simp
  unfold append
  rw [hid]
  simp only [List.modify_id]
  exact update_self p t.file

theorem resolveExtendTarget_mem {scope : ScopedName} {visible : List FileId} {span : Span}
    {t : NodeId} (h : p.resolveExtendTarget scope visible span = .ok t)
    : ∃ m, (p.heap t.file).messages[t.index]? = some m := by
  unfold resolveExtendTarget at h
  split at h
  . simp at h
  . split at h
    . simp at h
    . next ref href =>
      dsimp only at h
      split at h
      . cases hlookup : p.lookupMessage visible ref with
        | none => simp [hlookup] at h
        | some t' =>
          rw [hlookup, Option.elim_some, Except.ok.injEq] at h
          subst h
          obtain ⟨-, m, hget, -⟩ := lookupMessage_eq_some hlookup
          exact ⟨m, hget⟩
      . cases hpeel : p.peelMessage scope visible ref (scope.segments.length + 1) with
        | none => simp [hpeel] at h
        | some t' =>
          rw [hpeel, Option.elim_some, Except.ok.injEq] at h
          subst h
          obtain ⟨_, -, ⟨-, m, hget, -⟩, -⟩ := peelMessage_eq_some hpeel
          exact ⟨m, hget⟩

/-! One block. -/

theorem foldlM_countExtension (l : List FieldParseResult) (n : Nat)
    : l.foldlM countExtension n = .ok (n + l.length) := by
  induction l generalizing n with
  | nil => rfl
  | cons _ l ih =>
    rw [List.foldlM_cons, List.length_cons, Nat.add_comm _ 1, ← Nat.add_assoc]
    exact ih (n + 1)

theorem foldlM_fillExtension (l : List FieldParseResult) (fields : List FieldNode)
    : l.foldlM fillExtension (Slots.filled fields l.length, fields.length)
        = .ok (Slots.filled (fields ++ l.map extensionNode) 0,
            (fields ++ l.map extensionNode).length) := by
  induction l generalizing fields with
  | nil =>
    rw [List.map_nil, List.append_nil]
    rfl
  | cons parsed l ih =>
    have hput := Slots.put_filled fields l.length (extensionNode parsed)
    have hrest := ih (fields ++ [extensionNode parsed])
    rw [List.append_assoc, List.singleton_append] at hrest
    rw [show (fields ++ [extensionNode parsed]).length = fields.length + 1 by simp] at hrest
    rw [List.foldlM_cons, List.length_cons]
    simp only [fillExtension, hput, orOverrun]
    exact hrest

variable (p) in
/--
The scope of what is at the top of a file or in a message of it.
-/
def scopeOf (f : FileId) (parent : Option Nat) : ScopedName :=
  parentName ((packageScope (p.heap f)).toOption.getD ⟨[], true⟩) (p.heap f).messages parent

theorem scopeOf_some (hq : Keeps p q) {f : FileId} {next : Nat}
    (h : next < (p.heap f).messages.length)
    : ∃ m, (q.heap f).messages[next]? = some m ∧ m.scopedName = p.scopeOf f (some next) := by
  obtain ⟨m, hget, hname⟩ := hq.getElem? (List.getElem?_eq_getElem h)
  refine ⟨m, hget, ?_⟩
  simp only [hname, scopeOf, parentName, List.getElem?_eq_getElem h, Option.elim_some]

section Blocks

variable [Libc] (text : FileId → Span) (p)

def newFields (b : Block) : List FieldNode :=
  (extendFields (b.body text)).1.map fun parsed =>
    b.tagged text (p.heap b.file) (extensionNode parsed)

def targetOf (b : Block) : NodeId :=
  match p.resolveExtendTarget b.scope (p.heap b.file).visible b.parsed.baseType with
  | .ok t => t
  | .error _ => ⟨0, 0⟩

def extendBlock (q : Pool) (b : Block) : Pool :=
  q.append (p.targetOf b) (p.newFields text b)

/--
A block whose target is found and whose body is fields to its end.
-/
structure Applies (b : Block) : Prop where
  target : p.resolveExtendTarget b.scope (p.heap b.file).visible b.parsed.baseType
    = .ok (p.targetOf b)
  ending : (extendFields (b.body text)).2 = none

variable {p text}

theorem Keeps.tagged (hq : Keeps p q) (b : Block)
    : b.tagged text (q.heap b.file) = b.tagged text (p.heap b.file) := by
  funext fld
  unfold Block.tagged
  rw [hq.fieldPacking]

theorem applyExtend_regular (hq : Keeps p q) (b : Block)
    : Regular (fun q' => p.Applies text b ∧ q' = p.extendBlock text q b)
        (q.applyExtend text b) := by
  unfold applyExtend
  rw [hq.resolveExtendTarget, hq.visible, hq.tagged]
  cases hresolve : p.resolveExtendTarget b.scope (p.heap b.file).visible b.parsed.baseType with
  | error e => trivial
  | ok t =>
    have htarget : p.targetOf b = t := by
      unfold targetOf
      rw [hresolve]
    have hcount : Regular (fun n => n = (extendFields (b.body text)).1.length)
        ((extendFields (b.body text)).1.foldlM countExtension 0) := by
      rw [foldlM_countExtension]
      exact Nat.zero_add _
    refine (walkExtendBody_regular hcount).bind ?_
    rintro _ ⟨rfl, hend⟩
    have happlies : p.Applies text b := ⟨by rw [hresolve, htarget], hend⟩
    split
    . next hnil =>
      rw [List.length_eq_zero_iff] at hnil
      refine ⟨happlies, ?_⟩
      rw [extendBlock, newFields, hnil, List.map_nil, append_nil]
    . obtain ⟨m₀, hget₀⟩ := resolveExtendTarget_mem hresolve
      obtain ⟨m, hget, -⟩ := hq.getElem? hget₀
      rw [hget]
      have hfill : Regular (fun s => s.1
            = Slots.filled (m.fields ++ (extendFields (b.body text)).1.map extensionNode) 0)
          ((extendFields (b.body text)).1.foldlM fillExtension
            (Slots.filled m.fields (extendFields (b.body text)).1.length, m.fields.length)) := by
        rw [foldlM_fillExtension]
        rfl
      refine (walkExtendBody_regular hfill).bind ?_
      rintro ⟨merged, fi⟩ ⟨hmerged, -⟩
      dsimp only at hmerged ⊢
      rw [hmerged, Slots.contents_filled]
      refine ⟨happlies, ?_⟩
      rw [List.take_left, List.drop_left, setFields_eq_append _ hget, extendBlock, htarget, newFields,
        List.map_map]
      rfl

theorem Keeps.extendBlock (hq : Keeps p q) (b : Block) : Keeps p (p.extendBlock text q b) :=
  hq.append _ _

theorem Keeps.foldl (hq : Keeps p q) (blocks : List Block)
    : Keeps p (blocks.foldl (p.extendBlock text) q) := by
  induction blocks generalizing q with
  | nil => exact hq
  | cons b blocks ih => exact ih (hq.extendBlock b)

/-! The walks. -/

variable (p) in
def blockAt (f : FileId) (e : Option Nat × Nat × ExtendParseResult) : Block :=
  ⟨f, p.scopeOf f e.1, e.2.1, e.2.2⟩

variable (p text) in
/--
What a walk over these blocks does to files that differ from `p` in fields only, and where it leaves
the running index.
-/
def Propagated (q : Pool) (blocks : List Block) (next : Nat) (s : Pool × Nat) : Prop :=
  (∀ b ∈ blocks, p.Applies text b) ∧ s = (blocks.foldl (p.extendBlock text) q, next)

theorem Propagated.append {blocks blocks' : List Block} {next : Nat} {s : Pool × Nat}
    (h : ∀ b ∈ blocks, p.Applies text b)
    (h' : p.Propagated text (blocks.foldl (p.extendBlock text) q) blocks' next s)
    : p.Propagated text q (blocks ++ blocks') next s := by
  obtain ⟨happlies, rfl⟩ := h'
  refine ⟨?_, ?_⟩
  . intro b hb
    rcases List.mem_append.mp hb with hb | hb
    . exact h b hb
    . exact happlies b hb
  . rw [List.foldl_append]

theorem Propagated.cons {b : Block} {blocks : List Block} {next : Nat} {s : Pool × Nat}
    (h : p.Applies text b) (h' : p.Propagated text (p.extendBlock text q b) blocks next s)
    : p.Propagated text q (b :: blocks) next s := by
  obtain ⟨happlies, rfl⟩ := h'
  refine ⟨?_, rfl⟩
  rw [List.forall_mem_cons]
  exact ⟨h, happlies⟩

variable (p text) in
/--
The walk over a message in a file propagates the blocks in it.
-/
def Walks (nested : BodyParseResult → ScopedName → Pool × Nat → Except Stop (Pool × Nat)) (f : FileId)
    (parsed : BodyParseResult) (body : Outline) : Prop :=
  ∀ q next, Keeps p q → next + body.size < (p.heap f).messages.length →
    Regular (p.Propagated text q
        ((body.extends (some next) (next + 1) parsed.bodyEnd).map (p.blockAt f))
        (next + 1 + body.size))
      (nested parsed (p.scopeOf f (some next)) (q, next + 1))

theorem extendBody_regular {f : FileId}
    {nested : BodyParseResult → ScopedName → Pool × Nat → Except Stop (Pool × Nat)}
    {es : List MessageEntry} {o : Outline} (ho : o.OfBody (text f) es)
    (hnested : ∀ parsed, .message parsed ∈ es → ∀ inner body,
      bodyEntries (text f) parsed = (inner, none) → body.OfBody (text f) inner
      → p.Walks text nested f parsed body)
    (parent : Option Nat) (stop : Nat) (hq : Keeps p q) (next : Nat)
    (hnext : next + o.size ≤ (p.heap f).messages.length)
    : Regular (p.Propagated text q ((o.extends parent next stop).map (p.blockAt f)) (next + o.size))
        (es.foldlM (extendMessageEntry text nested f stop (p.scopeOf f parent)) (q, next)) := by
  induction ho generalizing q next with
  | nil => exact ⟨by simp [Outline.extends], rfl⟩
  | @entry e es rest he hrest ih =>
    rw [List.foldlM_cons]
    have hrest {q : Pool} (hq : Keeps p q) :=
      ih (fun parsed hmem => hnested parsed (List.mem_cons_of_mem _ hmem)) hq next hnext
    cases e with
    | extend parsed =>
      have hentry : Regular (fun s => p.Applies text (p.blockAt f (parent, stop, parsed))
            ∧ s = (p.extendBlock text q (p.blockAt f (parent, stop, parsed)), next))
          (extendMessageEntry text nested f stop (p.scopeOf f parent) (q, next) (.extend parsed)) := by
        refine (applyExtend_regular hq (p.blockAt f (parent, stop, parsed))).bind ?_
        rintro _ ⟨happlies, rfl⟩
        exact ⟨happlies, rfl⟩
      refine hentry.bind ?_
      rintro _ ⟨happlies, rfl⟩
      refine (hrest (hq.extendBlock _)).imp fun s hs => ?_
      exact .cons happlies hs
    | message parsed => exact absurd rfl (he parsed)
    | field _ | oneof _ | enumeration _ | option _ | extensions _ | reserved _ | group =>
      exact hrest hq
  | @message parsed inner es body rest hinner hbody _ _ ih =>
    rw [List.foldlM_cons]
    rw [Outline.size] at hnext ⊢
    have hentry : Regular (p.Propagated text q
          ((body.extends (some next) (next + 1) parsed.bodyEnd).map (p.blockAt f))
          (next + 1 + body.size))
        (extendMessageEntry text nested f stop (p.scopeOf f parent) (q, next) (.message parsed)) := by
      -- The messages are numbered in the order of the first pass, so the next number is the one of this
      -- message.
      obtain ⟨m, hget, hname⟩ := scopeOf_some hq (show next < (p.heap f).messages.length by omega)
      unfold extendMessageEntry
      dsimp only
      rw [hget]
      have := hnested parsed List.mem_cons_self inner body hinner hbody q next hq (by omega)
      rw [← hname] at this
      exact this
    refine hentry.bind ?_
    rintro _ ⟨happlies, rfl⟩
    refine (ih (fun parsed hmem => hnested parsed (List.mem_cons_of_mem _ hmem)) (hq.foldl _)
      (next + 1 + body.size) (by omega)).imp fun s hs => ?_
    rw [Outline.extends, List.map_append, show next + (body.size + rest.size + 1)
      = next + 1 + body.size + rest.size by omega]
    exact .append happlies hs

theorem extendMessageBody_regular {f : FileId} {fuel : Nat} {parsed : BodyParseResult}
    {inner : List MessageEntry} {body : Outline} (hfuel : bodyLength (text f) parsed < fuel)
    (hinner : bodyEntries (text f) parsed = (inner, none)) (hbody : body.OfBody (text f) inner)
    : p.Walks text (extendMessageBody text f fuel) f parsed body := by
  induction fuel generalizing parsed inner body with
  | zero => omega
  | succ fuel ih =>
    intro q next hq hnext
    have hentries : inner = (entries messageNextEntry (bodyOf (text f) parsed)).1 :=
      (congrArg Prod.fst hinner).symm
    have hnested : ∀ nested, .message nested ∈ inner → ∀ inner' body',
        bodyEntries (text f) nested = (inner', none) → body'.OfBody (text f) inner'
        → p.Walks text (extendMessageBody text f fuel) f nested body' := by
      intro nested hmem inner' body' hinner' hbody'
      refine ih ?_ hinner' hbody'
      have := bodyEntries_shorter (hentries ▸ hmem)
      omega
    have hfold := extendBody_regular hbody hnested (some next) parsed.bodyEnd hq (next + 1) (by omega)
    rw [hentries] at hfold
    exact (walk_regular eager_messageNextEntry hfold).imp fun _ h => h.1

theorem extendFile_fold {f : FileId} {es : List FileEntry} {o : Outline} (ho : o.OfFile (text f) es)
    (hes : ∀ parsed, .message parsed ∈ es → bodyLength (text f) parsed < levels (text f))
    (hq : Keeps p q) (next : Nat) (hnext : next + o.size ≤ (p.heap f).messages.length)
    : Regular (p.Propagated text q ((o.extends none next (text f).length).map (p.blockAt f))
          (next + o.size))
        (es.foldlM (extendFileEntry text f (p.scopeOf f none)) (q, next)) := by
  induction ho generalizing q next with
  | nil => exact ⟨by simp [Outline.extends], rfl⟩
  | @entry e es rest he hrest ih =>
    rw [List.foldlM_cons]
    have hrest {q : Pool} (hq : Keeps p q) :=
      ih (fun parsed hmem => hes parsed (List.mem_cons_of_mem _ hmem)) hq next hnext
    cases e with
    | extend parsed =>
      have hentry : Regular (fun s => p.Applies text (p.blockAt f (none, (text f).length, parsed))
            ∧ s = (p.extendBlock text q (p.blockAt f (none, (text f).length, parsed)), next))
          (extendFileEntry text f (p.scopeOf f none) (q, next) (.extend parsed)) := by
        refine (applyExtend_regular hq (p.blockAt f (none, (text f).length, parsed))).bind ?_
        rintro _ ⟨happlies, rfl⟩
        exact ⟨happlies, rfl⟩
      refine hentry.bind ?_
      rintro _ ⟨happlies, rfl⟩
      refine (hrest (hq.extendBlock _)).imp fun s hs => ?_
      exact .cons happlies hs
    | message parsed => exact absurd rfl (he parsed)
    | syntaxDef _ | edition _ | package _ | importDef _ | option _ | enumeration _ | service =>
      exact hrest hq
  | @message parsed inner es body rest hinner hbody _ ih =>
    rw [List.foldlM_cons]
    rw [Outline.size] at hnext ⊢
    have hentry : Regular (p.Propagated text q
          ((body.extends (some next) (next + 1) parsed.bodyEnd).map (p.blockAt f))
          (next + 1 + body.size))
        (extendFileEntry text f (p.scopeOf f none) (q, next) (.message parsed)) := by
      obtain ⟨m, hget, hname⟩ := scopeOf_some hq (show next < (p.heap f).messages.length by omega)
      unfold extendFileEntry
      dsimp only
      rw [hget]
      have := extendMessageBody_regular (hes parsed List.mem_cons_self) hinner hbody q next hq
        (by omega)
      rw [← hname] at this
      exact this
    refine hentry.bind ?_
    rintro _ ⟨happlies, rfl⟩
    refine (ih (fun parsed hmem => hes parsed (List.mem_cons_of_mem _ hmem)) (hq.foldl _)
      (next + 1 + body.size) (by omega)).imp fun s hs => ?_
    rw [Outline.extends, List.map_append, show next + (body.size + rest.size + 1)
      = next + 1 + body.size + rest.size by omega]
    exact .append happlies hs

variable (p text) in
/--
The blocks of a file in the order of its text.
-/
def blocksOf (f : FileId) (o : Outline) : List Block :=
  (o.extends none 0 (text f).length).map (p.blockAt f)

theorem extendFile_regular {f : FileId} {o : Outline} (ho : o.Of (text f) 0)
    (hsize : o.size = (p.heap f).messages.length) (hq : Keeps p q)
    : Regular (fun q' => (∀ b ∈ p.blocksOf text f o, p.Applies text b)
          ∧ q' = (p.blocksOf text f o).foldl (p.extendBlock text) q)
        (extendFile text f q) := by
  obtain ⟨es, hes, ho⟩ := ho
  have hentries : es = (fileEntries (text f) 0).1 := (congrArg Prod.fst hes).symm
  have hshorter : ∀ parsed, .message parsed ∈ es → bodyLength (text f) parsed < levels (text f) := by
    rw [hentries]
    exact fun parsed => fileEntries_shorter
  unfold extendFile packageScope
  rw [hq.package]
  cases hscope : packageScope (p.heap f) with
  | error e =>
    unfold packageScope at hscope
    rw [hscope]
    trivial
  | ok scope =>
    have hfold := extendFile_fold ho hshorter hq 0 (by omega)
    have : p.scopeOf f none = scope := by
      simp only [scopeOf, hscope, parentName]
      rfl
    rw [hentries, this] at hfold
    unfold packageScope at hscope
    rw [hscope]
    refine (walk_regular eager_fileNextEntry hfold).bind ?_
    rintro _ ⟨⟨happlies, rfl⟩, -⟩
    exact ⟨happlies, rfl⟩

variable (p text) in
/--
The blocks of all files, those of an earlier file first.
-/
def blocks (outline : FileId → Outline) : List Block :=
  p.files.flatMap fun f => p.blocksOf text f (outline f)

theorem propagateExtends_go {outline : FileId → Outline} {l : List FileId}
    (ho : ∀ f ∈ l, (outline f).Of (text f) 0)
    (hsize : ∀ f ∈ l, (outline f).size = (p.heap f).messages.length) (hq : Keeps p q) (i : Nat)
    : (∃ e i', propagateExtends.go text l i q = .error ⟨.error e, i'⟩)
        ∨ (∀ b ∈ l.flatMap fun f => p.blocksOf text f (outline f), p.Applies text b)
          ∧ propagateExtends.go text l i q
            = .ok ((l.flatMap fun f => p.blocksOf text f (outline f)).foldl (p.extendBlock text) q) := by
  induction l generalizing q i with
  | nil => exact .inr ⟨by simp, rfl⟩
  | cons f l ih =>
    rw [List.forall_mem_cons] at ho hsize
    rw [propagateExtends.go]
    rcases (extendFile_regular ho.1 hsize.1 hq).cases with ⟨e, he⟩ | ⟨_, hok, happlies, rfl⟩
    . rw [he]
      exact .inl ⟨e, i, rfl⟩
    . rw [hok]
      dsimp only
      rcases ih ho.2 hsize.2 (hq.foldl _) (i + 1) with ⟨e, i', he⟩ | ⟨happlies', hgo⟩
      . exact .inl ⟨e, i', he⟩
      . refine .inr ⟨?_, ?_⟩
        . intro b hb
          rw [List.flatMap_cons, List.mem_append] at hb
          rcases hb with hb | hb
          . exact happlies b hb
          . exact happlies' b hb
        . rw [hgo, List.flatMap_cons, List.foldl_append]

/-! The result. -/

variable (p text) in
/--
The fields that the blocks with this target append.
-/
def appended (blocks : List Block) (t : NodeId) : List FieldNode :=
  (blocks.filter fun b => p.targetOf b = t).flatMap (p.newFields text)

theorem foldl_heap (blocks : List Block) (f : FileId)
    : (blocks.foldl (p.extendBlock text) q).heap f
        = {
            q.heap f with
            messages := (q.heap f).messages.mapIdx fun i m =>
              { m with fields := m.fields ++ p.appended text blocks ⟨f, i⟩ }
          } := by
  induction blocks generalizing q with
  | nil =>
    have hmessages : (q.heap f).messages.mapIdx (fun i m =>
        { m with fields := m.fields ++ p.appended text [] ⟨f, i⟩ }) = (q.heap f).messages := by
      apply List.ext_getElem?
      intro i
      simp [appended]
    rw [hmessages]
    rfl
  | cons b blocks ih =>
    rw [List.foldl_cons, ih]
    have happended (t : NodeId) : p.appended text (b :: blocks) t
        = (if p.targetOf b = t then p.newFields text b else []) ++ p.appended text blocks t := by
      unfold appended
      rw [List.filter_cons]
      split <;> simp_all
    -- A block appends to one message of one file.
    by_cases hf : f = (p.targetOf b).file
    . have hmessages : ((p.extendBlock text q b).heap f).messages.mapIdx (fun i m =>
            { m with fields := m.fields ++ p.appended text blocks ⟨f, i⟩ })
          = (q.heap f).messages.mapIdx fun i m =>
            { m with fields := m.fields ++ p.appended text (b :: blocks) ⟨f, i⟩ } := by
        apply List.ext_getElem?
        intro i
        rw [List.getElem?_mapIdx, List.getElem?_mapIdx, extendBlock, Pool.append, hf,
          update_heap_self, List.getElem?_modify]
        rw [happended]
        cases (q.heap (p.targetOf b).file).messages[i]? with
        | none => rfl
        | some m =>
          by_cases hi : (p.targetOf b).index = i
          . subst hi
            simp
          . have : p.targetOf b ≠ ⟨(p.targetOf b).file, i⟩ := by
              intro heq
              exact hi (congrArg NodeId.index heq)
            simp [hi, this]
      rw [hmessages, extendBlock, Pool.append, hf, update_heap_self]
    . have hne (i : Nat) : p.targetOf b ≠ ⟨f, i⟩ := by
        intro heq
        exact hf (congrArg NodeId.file heq).symm
      rw [extendBlock, Pool.append, update_heap_of_ne hf]
      simp [happended, hne]

end Blocks

end Pool

end Gremlin
