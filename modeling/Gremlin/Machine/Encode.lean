import Gremlin.Machine.Size

/-!
This module contains the generated encode function on the memory of a machine. The buffer is a part of the
memory, so that every write may change what is read behind it. Where the buffer is apart from the
messages, it refines the encode function on message values.
-/

namespace Gremlin

open Codec Machine Memory

section Code

variable {S : Schema} (L : Layout S) (buf : Addr)

/--
A call of one of the runtime's `_at` functions on the buffer.
-/
def onBuffer (write : Mem → Nat → Mem × Nat) : Emitter Mem := fun off mem =>
  let (bytes, off) := write (fun k => mem (buf + k)) off
  some (off, fun x => if buf ≤ x then bytes (x - buf) else mem x)

def encodeTagAt (index : Nat) (wt : WireType) : Emitter Mem :=
  onBuffer buf fun bytes off => varint32EncodeAt bytes off (packTag index wt)

def encodeLengthAt (len : Mem → SizeT) : Emitter Mem := fun off =>
  reads len >>= fun len => onBuffer buf (fun bytes off => varintEncodeAt bytes off len) off

def encodeElemAt (e : Elem) (p : Mem → Addr) : Emitter Mem := fun off =>
  reads (fun mem => L.loadElem e (p mem) mem) >>= fun v => onBuffer buf (e.encodeAt v) off

def encodeBytesAt (p : Mem → Addr) : Emitter Mem := fun off =>
  encodeLengthAt buf (fun mem => BitVec.ofNat 64 (L.loadSpan (p mem) mem).size) off >>= fun off =>
    reads (fun mem => L.loadBytes (p mem) mem) >>= fun v =>
      onBuffer buf (fun bytes off => writeBytesAt bytes off v) off

def encodeSlotAt (num : Nat) : Slot → (Mem → Addr) → Emitter Mem
  | .elem e, p => fun off => encodeTagAt buf num e.wireType off >>= encodeElemAt L buf e p
  | .bytes, p => fun off => encodeTagAt buf num .lenPrefix off >>= encodeBytesAt L buf p

/--
A use of a reference. `NULL` must not be followed.
-/
def follow (p : Mem → Option Addr) (f : Addr → Emitter Mem) : Emitter Mem := fun off =>
  reads p >>= fun
    | some p => f p off
    | none => failure

variable (messageSize : MsgId → Addr → MachineM SizeT) (encodeMessage : MsgId → Addr → Emitter Mem) (fuel : Nat)

def encodeChildAt (target : MsgId) (p : Mem → Option Addr) : Emitter Mem := fun off =>
  follow p (fun p => encodeLengthAt buf (L.loadCache target p)) off >>= follow p (encodeMessage target)

def encodeMapValueAt (num : Nat) : MapValue → (Mem → Addr) → Emitter Mem
  | .slot s, p => encodeSlotAt L buf num s p
  | .message target, p => fun off =>
    encodeTagAt buf num .lenPrefix off >>= fun off =>
      encodeLengthAt buf
          (fun mem =>
            match L.loadPointer (p mem) mem with
            | some q => L.loadCache target q mem
            | none => 0)
          off
        >>= fun off =>
          reads (fun mem => L.loadPointer (p mem) mem) >>= fun
            | some q => encodeMessage target q off
            | none => pure off

variable (t : MsgId) (i : Nat) (a : Addr) (index : Nat)

/--
`encodeField` on a memory. A loop has `fuel` turns at most.
-/
def encodeFieldAt : Family → Emitter Mem
  | .scalar e default => fun off =>
    reads (fun mem => e.differs (L.loadElem e (L.member t i a) mem) default) >>= fun differs =>
      if differs then
        encodeTagAt buf index e.wireType off >>= encodeElemAt L buf e fun _ => L.member t i a
      else
        pure off
  | .bytes default => fun off =>
    reads (fun mem => decide (L.loadBytes (L.member t i a) mem ≠ default)) >>= fun differs =>
      if differs then
        encodeTagAt buf index .lenPrefix off >>= encodeBytesAt L buf fun _ => L.member t i a
      else
        pure off
  | .msgRef target => fun off =>
    reads (L.loadPointer (L.member t i a)) >>= fun
      | none => pure off
      | some _ =>
        encodeTagAt buf index .lenPrefix off
          >>= encodeChildAt L buf encodeMessage target (L.loadPointer (L.member t i a))
  | .repScalar e packing =>
    let elem (k : Nat) : Emitter Mem := encodeElemAt L buf e (L.element t i a e.byteSize k)
    let encodeUnpacked (k : Nat) : Emitter Mem := fun off => encodeTagAt buf index e.wireType off >>= elem k
    let encodePacked : Emitter Mem := fun off =>
      reads (fun mem => payloadSize e (L.loadField t i a mem (.repScalar e packing))) >>= fun payload =>
        encodeTagAt buf index .lenPrefix off >>= fun off =>
          encodeLengthAt buf (fun _ => payload) off >>= loop (L.count t i a) elem fuel 0
    match packing with
    | .expanded => loop (L.count t i a) encodeUnpacked fuel 0
    | .auto => fun off =>
      reads (L.count t i a) >>= fun
        | 0 => pure off
        | 1 => encodeUnpacked 0 off
        | _ => encodePacked off
    | .packed => fun off =>
      reads (L.count t i a) >>= fun
        | 0 => pure off
        | _ => encodePacked off
  | .repBytes =>
    loop (L.count t i a)
      (fun k off => encodeTagAt buf index .lenPrefix off >>= encodeBytesAt L buf (L.element t i a 16 k))
      fuel 0
  | .repMsg target =>
    loop (L.count t i a)
      (fun k off =>
        reads (fun mem => L.loadPointer (L.element t i a 8 k mem) mem) >>= fun
          | some p =>
            encodeTagAt buf index .lenPrefix off >>= encodeChildAt L buf encodeMessage target fun _ => some p
          | none => encodeTagAt buf index .lenPrefix off >>= encodeLengthAt buf fun _ => 0)
      fuel 0
  | .map key value =>
    loop (L.count t i a)
      (fun k off =>
        entrySizeAt L messageSize t i a key value k >>= fun inner =>
          encodeTagAt buf index .lenPrefix off >>= fun off =>
            encodeLengthAt buf (fun _ => inner) off >>= fun off =>
              encodeSlotAt L buf 1 key (fun mem => L.element t i a (L.entrySize t i) k mem + L.keyAt t i) off
                >>= encodeMapValueAt L buf encodeMessage 2 value
                  fun mem => L.element t i a (L.entrySize t i) k mem + L.valueAt t i)
      fuel 0

end Code

/--
The generated encode function on a memory, into the buffer at `buf`. `fuel` bounds the depth of the
recursion and the turns of the loops.
-/
def encodeIntoAt {S : Schema} (L : Layout S) (buf : Addr) : (fuel : Nat) → MsgId → Addr → Emitter Mem
  | 0, _, _ => fun _ => failure
  | fuel + 1, t, a => fun off =>
    (List.finRange (S t).length).foldlM
      (fun off (i : Fin (S t).length) =>
        encodeFieldAt L buf (sizeAt L fuel) (encodeIntoAt L buf fuel) fuel t i a (S.field t i).index
          (S.field t i).family off)
      off

/-! What the encode function reads. -/

namespace Layout

variable {S : Schema} (L : Layout S)

def slotPayloads : Slot → Addr → Mem → List Region
  | .elem _, _, _ => []
  | .bytes, a, mem => [L.loadSpan a mem]

def mapValuePayloads : MapValue → Addr → Mem → List Region
  | .slot s, a, mem => L.slotPayloads s a mem
  | .message _, _, _ => []

/--
The bytes that a field points to.
-/
def payloads (t : MsgId) (i : Nat) (a : Addr) (f : Family) (mem : Mem) : List Region :=
  match f with
  | .bytes _ => L.slotPayloads .bytes (L.member t i a) mem
  | .repBytes =>
    (L.elements t i a (fun k mem => L.slotPayloads .bytes (L.element t i a 16 k mem) mem) mem).flatten
  | .map key value =>
    (L.elements t i a
      (fun k mem =>
        L.slotPayloads key (L.element t i a (L.entrySize t i) k mem + L.keyAt t i) mem
          ++ L.mapValuePayloads value (L.element t i a (L.entrySize t i) k mem + L.valueAt t i) mem)
      mem).flatten
  | _ => []

variable {L} {mem mem' : Mem}

theorem loadSlot_congr {s : Slot} {a : Addr} (h : AgreeOn mem mem' ⟨a, s.memberSize⟩)
    (hpayloads : ∀ r ∈ L.slotPayloads s a mem', AgreeOn mem mem' r) : L.loadSlot s a mem = L.loadSlot s a mem' := by
  cases s with
  | elem e => exact loadElem_congr h
  | bytes =>
    have hspan : L.loadSpan a mem = L.loadSpan a mem' := loadSpan_congr h
    have hagree := hpayloads (L.loadSpan a mem') (List.mem_singleton_self _)
    change Mem.read _ _ _ = Mem.read _ _ _
    rw [hspan]
    exact hagree.read

theorem loadMapValue_congr {value : MapValue} {a : Addr} (h : AgreeOn mem mem' ⟨a, value.memberSize⟩)
    (hpayloads : ∀ r ∈ L.mapValuePayloads value a mem', AgreeOn mem mem' r)
    : L.loadMapValue value a mem = L.loadMapValue value a mem' := by
  cases value with
  | slot s => exact loadSlot_congr h hpayloads
  | message target => exact loadPointer_congr h

theorem mem_flatten_elements {α : Type} {t : MsgId} {i : Nat} {a : Addr} {load : Nat → Mem → List α} {k : Nat} {x : α}
    (hk : k < L.count t i a mem) (hx : x ∈ load k mem) : x ∈ (L.elements t i a load mem).flatten := by
  rw [List.mem_flatten]
  refine ⟨load k mem, ?_, hx⟩
  exact List.mem_map.mpr ⟨k, List.mem_range.mpr hk, rfl⟩

/--
What a field holds depends on what the size function reads of it and on the bytes that it points to.
-/
theorem loadField_congr {t : MsgId} {i : Nat} {a : Addr} {f : Family} (hentry : L.EntryFits t i f)
    (h : L.SameField t i a f mem mem') (hpayloads : ∀ r ∈ L.payloads t i a f mem', AgreeOn mem mem' r)
    : L.loadField t i a mem f = L.loadField t i a mem' f := by
  have hmember := h.member
  cases f with
  | scalar e default => exact loadElem_congr hmember
  | bytes default => exact loadSlot_congr (s := .bytes) hmember hpayloads
  | msgRef target => exact loadPointer_congr hmember
  | repScalar e packing =>
    apply h.elements_eq rfl
    intro k hk
    rw [h.element rfl]
    exact loadElem_congr (h.agree_element rfl hk)
  | repBytes =>
    apply h.elements_eq rfl
    intro k hk
    rw [h.element rfl]
    apply loadSlot_congr (s := .bytes)
    . exact h.agree_element rfl hk
    . intro r hr
      exact hpayloads r (mem_flatten_elements hk hr)
  | repMsg target =>
    apply h.elements_eq rfl
    intro k hk
    rw [h.element rfl]
    exact loadPointer_congr (h.agree_element rfl hk)
  | map key value =>
    apply h.elements_eq rfl
    intro k hk
    obtain ⟨hkey, hvalue⟩ := h.agree_entry hentry hk
    unfold Layout.key Layout.value
    rw [h.element rfl]
    rw [loadSlot_congr hkey, loadMapValue_congr hvalue]
    . intro r hr
      exact hpayloads r (mem_flatten_elements hk (List.mem_append_right _ hr))
    . intro r hr
      exact hpayloads r (mem_flatten_elements hk (List.mem_append_left _ hr))

end Layout

/-! The refinement. -/

section Refinement

variable {S : Schema} (L : Layout S) (T : MsgId → Addr → Prop) (mem₀ start : Mem) (size : MsgId → Addr → SizeT)
variable (buf lo hi : Nat)

/--
The part of the buffer between two offsets.
-/
def window : Region :=
  ⟨buf + lo, hi - lo⟩

/--
The encode function works on a memory that has only changed between two offsets of the buffer.
-/
structure Buffered (mem : Mem) (st : Encoder) : Prop where
  only : ∀ x ∉ (window buf lo hi).addresses, mem x = start x
  buf : st.buf = fun k => mem (buf + k)
  cache : ∀ t a, T t a → st.cache t a = size t a

/--
Two memories have the same fields of the messages in `T`, and the same bytes that these point to.
-/
def SameContents (mem mem' : Mem) : Prop :=
  ∀ t a, T t a → ∀ i : Fin (S t).length,
    ∀ r ∈ L.fieldRegions t i a (S.field t i).family mem' ++ L.payloads t i a (S.field t i).family mem',
      AgreeOn mem mem' r

/--
What the encode function reads of the messages in `T` does not overlap with the part of the buffer.
-/
structure BufferApart : Prop where
  fields : ∀ t a, T t a → ∀ (i : Fin (S t).length),
    ∀ r ∈ L.fieldRegions t i a (S.field t i).family mem₀ ++ L.payloads t i a (S.field t i).family mem₀,
      Disjoint r.addresses (window buf lo hi).addresses
  caches : ∀ t a, T t a → Disjoint (L.cacheRegion t a).addresses (window buf lo hi).addresses

variable {L T mem₀ start size buf lo hi}

theorem refines_onBuffer {write : Mem → Nat → Mem × Nat} {bs : List UInt8}
    (h : ∀ bytes off, write bytes off = (bytes.write off bs, off + bs.length))
    : RefinesWithin lo hi (Buffered T start size buf lo hi) (onBuffer buf write) (writeAt write) where
  advances := by
    intro off st off' st' hrun
    unfold writeAt at hrun
    rw [h] at hrun
    cases hrun
    exact Nat.le_add_right _ _
  refines := by
    intro off mem st hlo hR off' st' hrun hhi
    unfold writeAt at hrun
    rw [h] at hrun
    cases hrun
    unfold onBuffer
    rw [h]
    refine ⟨_, rfl, ?_, ?_, hR.cache⟩
    . intro x hx
      rw [← hR.only x hx]
      rw [window, Region.addresses, Finset.mem_Ico] at hx
      change ¬(buf + lo ≤ x ∧ x < buf + lo + (hi - lo)) at hx
      by_cases hle : buf ≤ x
      . have hsub : buf + (x - buf) = x := by omega
        simp only [if_pos hle]
        -- A byte of the buffer outside of the part is before what is written or behind it.
        by_cases hlt : x - buf < off
        . rw [Mem.write_of_lt _ _ hlt, hsub]
        . rw [Mem.write_of_le _ _ (by omega), hsub]
      . simp only [if_neg hle]
    . funext k
      have hsub : buf + k - buf = k := by omega
      simp only [Nat.le_add_right, if_true, hsub, hR.buf]

section Writes

theorem refines_encodeTagAt (index : Nat) (wt : WireType)
    : RefinesWithin lo hi (Buffered T start size buf lo hi) (encodeTagAt buf index wt) (encodeTag index wt) :=
  refines_onBuffer fun bytes off => varint32EncodeAt_eq bytes off _

theorem refines_encodeLengthAt {len : Mem → SizeT} {v : SizeT}
    (hlen : ∀ mem st, Buffered T start size buf lo hi mem st → len mem = v)
    : RefinesWithin lo hi (Buffered T start size buf lo hi) (encodeLengthAt buf len) (encodeLength v) :=
  RefinesWithin.reads_const hlen (refines_onBuffer fun bytes off => varintEncodeAt_eq bytes off v)

theorem refines_encodeElemAt {e : Elem} {p : Mem → Addr} {v : e.Value}
    (hv : ∀ mem st, Buffered T start size buf lo hi mem st → L.loadElem e (p mem) mem = v)
    : RefinesWithin lo hi (Buffered T start size buf lo hi) (encodeElemAt L buf e p) (encodeElem e v) :=
  RefinesWithin.reads_const hv (refines_onBuffer fun bytes off => e.encodeAt_eq v bytes off)

theorem refines_encodeBytesAt {p : Mem → Addr} {v : List UInt8}
    (hv : ∀ mem st, Buffered T start size buf lo hi mem st → L.loadBytes (p mem) mem = v)
    : RefinesWithin lo hi (Buffered T start size buf lo hi) (encodeBytesAt L buf p) (encodeBytes v) := by
  apply RefinesWithin.bind
  . apply refines_encodeLengthAt
    intro mem st hR
    rw [← hv mem st hR, Layout.loadBytes, Mem.read, List.length_map, List.length_range]
  . exact RefinesWithin.reads_const hv (refines_onBuffer fun bytes off => rfl)

theorem refines_encodeSlotAt {num : Nat} {s : Slot} {p : Mem → Addr} {v : s.Value}
    (hv : ∀ mem st, Buffered T start size buf lo hi mem st → L.loadSlot s (p mem) mem = v)
    : RefinesWithin lo hi (Buffered T start size buf lo hi) (encodeSlotAt L buf num s p) (encodeSlot num s v) := by
  cases s with
  | elem e => exact RefinesWithin.bind (refines_encodeTagAt num _) (refines_encodeElemAt hv)
  | bytes => exact RefinesWithin.bind (refines_encodeTagAt num _) (refines_encodeBytesAt hv)

theorem refines_follow {p : Mem → Option Addr} {q : Addr} {f : Addr → Emitter Mem} {f' : Emitter Encoder}
    (hp : ∀ mem st, Buffered T start size buf lo hi mem st → p mem = some q)
    (hf : RefinesWithin lo hi (Buffered T start size buf lo hi) (f q) f')
    : RefinesWithin lo hi (Buffered T start size buf lo hi) (follow p f) f' :=
  RefinesWithin.reads_const hp hf

end Writes

section Field

variable {measureAt : MsgId → Addr → MachineM SizeT} {measure : MsgId → Addr → SizeM SizeT}
  {encodeMessageAt : MsgId → Addr → Emitter Mem} {encodeMessage : MsgId → Addr → Emitter Encoder}

/--
What is known of a child: its `_size` member is the one that the encoder holds, and the recursive call refines.
-/
structure RefinesChild (L : Layout S) (T : MsgId → Addr → Prop) (start : Mem) (size : MsgId → Addr → SizeT)
    (buf lo hi : Nat) (encodeMessageAt : MsgId → Addr → Emitter Mem)
    (encodeMessage : MsgId → Addr → Emitter Encoder) (target : MsgId) (p : Addr) : Prop where
  cached : ∀ mem st, Buffered T start size buf lo hi mem st → L.loadCache target p mem = st.cache target p
  encode : RefinesWithin lo hi (Buffered T start size buf lo hi) (encodeMessageAt target p) (encodeMessage target p)

theorem refines_encodeChildAt {target : MsgId} {p : Mem → Option Addr} {q : Addr}
    (hp : ∀ mem st, Buffered T start size buf lo hi mem st → p mem = some q)
    (hchild : RefinesChild L T start size buf lo hi encodeMessageAt encodeMessage target q)
    : RefinesWithin lo hi (Buffered T start size buf lo hi) (encodeChildAt L buf encodeMessageAt target p)
        (encodeChild encodeMessage target q) := by
  change RefinesWithin lo hi _ _ fun off =>
    (cachedSize target q >>= fun size => encodeLength size off) >>= encodeMessage target q
  apply RefinesWithin.bind
  . apply refines_follow hp
    exact RefinesWithin.reads_bind hchild.cached fun v =>
      refines_onBuffer fun bytes off => varintEncodeAt_eq bytes off v
  . exact refines_follow hp hchild.encode

theorem refines_encodeMapValueAt {num : Nat} {value : MapValue} {p : Mem → Addr} {v : value.Value}
    (hv : ∀ mem st, Buffered T start size buf lo hi mem st → L.loadMapValue value (p mem) mem = v)
    (hchild : ∀ target q, (target, q) ∈ value.children v
      → RefinesChild L T start size buf lo hi encodeMessageAt encodeMessage target q)
    : RefinesWithin lo hi (Buffered T start size buf lo hi) (encodeMapValueAt L buf encodeMessageAt num value p)
        (encodeMapValue encodeMessage num value v) := by
  cases value with
  | slot s => exact refines_encodeSlotAt hv
  | message target =>
    apply RefinesWithin.bind (refines_encodeTagAt num _)
    have hpointer : ∀ mem st, Buffered T start size buf lo hi mem st → L.loadPointer (p mem) mem = v := hv
    cases v with
    | none =>
      have hskip : encodeLength 0 = fun off => encodeLength 0 off >>= fun off => pure off := by
        funext off
        rw [bind_pure]
      change RefinesWithin lo hi _ _ (encodeLength 0)
      rw [hskip]
      apply RefinesWithin.bind
      . apply refines_encodeLengthAt
        intro mem st hR
        rw [hpointer mem st hR]
      . exact RefinesWithin.reads_const hpointer RefinesWithin.skip
    | some q =>
      have hq := hchild target q (List.mem_singleton_self _)
      change RefinesWithin lo hi _ _ fun off =>
        (cachedSize target q >>= fun size => encodeLength size off) >>= encodeMessage target q
      apply RefinesWithin.bind
      . apply RefinesWithin.reads_bind
        . intro mem st hR
          rw [hpointer mem st hR]
          exact hq.cached mem st hR
        . intro size
          exact refines_onBuffer fun bytes off => varintEncodeAt_eq bytes off size
      . exact RefinesWithin.reads_const hpointer hq.encode

variable {t : MsgId} {i : Nat} {a : Addr} {fuel index : Nat}

theorem refines_repScalarAt {e : Elem} {packing : Packing} {vs : (Family.repScalar e packing).Value}
    (hload : ∀ mem st, Buffered T start size buf lo hi mem st → L.loadField t i a mem (.repScalar e packing) = vs)
    (hfuel : vs.length < fuel)
    : RefinesWithin lo hi (Buffered T start size buf lo hi)
        (encodeFieldAt L buf measureAt encodeMessageAt fuel t i a index (.repScalar e packing))
        (encodeField measure encodeMessage index (.repScalar e packing) vs) := by
  have hcount : ∀ mem st, Buffered T start size buf lo hi mem st → L.count t i a mem = vs.length := fun mem st hR =>
    Layout.elements_length (hload mem st hR)
  have helem (k : Nat) (hk : k < vs.length)
      : RefinesWithin lo hi (Buffered T start size buf lo hi)
          (encodeElemAt L buf e (L.element t i a e.byteSize k)) (encodeElem e vs[k]) :=
    refines_encodeElemAt fun mem st hR => Layout.elements_apply (hload mem st hR) hk
  have hunpacked (k : Nat) (hk : k < vs.length)
      : RefinesWithin lo hi (Buffered T start size buf lo hi)
          (fun off =>
            encodeTagAt buf index e.wireType off >>= encodeElemAt L buf e (L.element t i a e.byteSize k))
          (fun off => encodeTag index e.wireType off >>= encodeElem e vs[k]) :=
    RefinesWithin.bind (refines_encodeTagAt index _) (helem k hk)
  have hpacked : RefinesWithin lo hi (Buffered T start size buf lo hi)
      (fun off =>
        reads (fun mem => payloadSize e (L.loadField t i a mem (.repScalar e packing))) >>= fun payload =>
          encodeTagAt buf index .lenPrefix off >>= fun off =>
            encodeLengthAt buf (fun _ => payload) off
              >>= loop (L.count t i a) (fun k => encodeElemAt L buf e (L.element t i a e.byteSize k)) fuel 0)
      (fun off => do
        let off ← encodeTag index .lenPrefix off
        let off ← encodeLength (payloadSize e vs) off
        vs.foldlM (fun off v => encodeElem e v off) off) := by
    apply RefinesWithin.reads_const
    . intro mem st hR
      rw [hload mem st hR]
    . apply RefinesWithin.bind (refines_encodeTagAt index _)
      apply RefinesWithin.bind (refines_encodeLengthAt fun _ _ _ => rfl)
      exact RefinesWithin.loop hcount helem hfuel
  cases packing with
  | expanded =>
    have hloop : RefinesWithin lo hi (Buffered T start size buf lo hi)
        (loop (L.count t i a)
          (fun k off =>
            encodeTagAt buf index e.wireType off >>= encodeElemAt L buf e (L.element t i a e.byteSize k))
          fuel 0)
        (fun off => vs.foldlM (fun off v => encodeTag index e.wireType off >>= encodeElem e v) off) :=
      RefinesWithin.loop hcount hunpacked hfuel
    cases vs with
    | nil => exact hloop
    | cons v vs => cases vs <;> exact hloop
  | packed =>
    apply RefinesWithin.reads_const hcount
    cases vs with
    | nil => exact RefinesWithin.skip
    | cons v vs => cases vs <;> exact hpacked
  | auto =>
    apply RefinesWithin.reads_const hcount
    cases vs with
    | nil => exact RefinesWithin.skip
    | cons v vs =>
      cases vs with
      | nil => exact hunpacked 0 Nat.one_pos
      | cons v' vs => exact hpacked

theorem refines_encodeFieldAt {f : Family} {v : f.Value}
    (hload : ∀ mem st, Buffered T start size buf lo hi mem st → L.loadField t i a mem f = v)
    (hbase : L.loadField t i a mem₀ f = v) (hfuel : 2 ^ 64 ≤ fuel)
    (hinner : ∀ key value, f = .map key value → ∀ k < L.count t i a mem₀,
      Refines (Buffered T start size buf lo hi) (entrySizeAt L measureAt t i a key value k)
        (onCache (entrySize measure key value (L.key t i a k key mem₀, L.value t i a k value mem₀))))
    (hchild : ∀ target p, (target, p) ∈ f.children v
      → RefinesChild L T start size buf lo hi encodeMessageAt encodeMessage target p)
    : RefinesWithin lo hi (Buffered T start size buf lo hi)
        (encodeFieldAt L buf measureAt encodeMessageAt fuel t i a index f)
        (encodeField measure encodeMessage index f v) := by
  have hlt : L.count t i a mem₀ < 2 ^ 64 := Layout.loadWord_lt _ _
  cases f with
  | scalar e default =>
    have hvalue : ∀ mem st, Buffered T start size buf lo hi mem st → L.loadElem e (L.member t i a) mem = v := hload
    apply RefinesWithin.reads_const
    . intro mem st hR
      rw [hvalue mem st hR]
    . exact RefinesWithin.ite (RefinesWithin.bind (refines_encodeTagAt index _) (refines_encodeElemAt hvalue))
        RefinesWithin.skip
  | bytes default =>
    have hvalue : ∀ mem st, Buffered T start size buf lo hi mem st → L.loadBytes (L.member t i a) mem = v := hload
    apply RefinesWithin.reads_const
    . intro mem st hR
      rw [hvalue mem st hR]
    . simp only [decide_eq_true_eq]
      exact RefinesWithin.ite (RefinesWithin.bind (refines_encodeTagAt index _) (refines_encodeBytesAt hvalue))
        RefinesWithin.skip
  | msgRef target =>
    have hvalue : ∀ mem st, Buffered T start size buf lo hi mem st → L.loadPointer (L.member t i a) mem = v := hload
    apply RefinesWithin.reads_const hvalue
    cases v with
    | none => exact RefinesWithin.skip
    | some p =>
      apply RefinesWithin.bind (refines_encodeTagAt index _)
      apply refines_encodeChildAt hvalue
      apply hchild
      exact List.mem_singleton_self _
  | repScalar e packing =>
    apply refines_repScalarAt hload
    rw [← Layout.elements_length hbase]
    omega
  | repBytes =>
    apply RefinesWithin.loop
    . intro mem st hR
      exact Layout.elements_length (hload mem st hR)
    . intro k hk
      apply RefinesWithin.bind (refines_encodeTagAt index _)
      apply refines_encodeBytesAt
      intro mem st hR
      exact Layout.elements_apply (hload mem st hR) hk
    . rw [← Layout.elements_length hbase]
      omega
  | repMsg target =>
    apply RefinesWithin.loop
    . intro mem st hR
      exact Layout.elements_length (hload mem st hR)
    . intro k hk
      apply RefinesWithin.reads_const (v := v[k])
      . intro mem st hR
        exact Layout.elements_apply (hload mem st hR) hk
      . have hmem := List.getElem_mem hk
        cases hp : v[k] with
        | none => exact RefinesWithin.bind (refines_encodeTagAt index _) (refines_encodeLengthAt fun _ _ _ => rfl)
        | some p =>
          rw [hp] at hmem
          apply RefinesWithin.bind (refines_encodeTagAt index _)
          apply refines_encodeChildAt fun _ _ _ => rfl
          apply hchild
          exact List.mem_filterMap.mpr ⟨some p, hmem, rfl⟩
    . rw [← Layout.elements_length hbase]
      omega
  | map key value =>
    have helements (mem : Mem) : L.loadField t i a mem (.map key value)
        = L.elements t i a (fun k mem => (L.key t i a k key mem, L.value t i a k value mem)) mem :=
      rfl
    simp only [helements] at hload hbase
    apply RefinesWithin.loop
    . intro mem st hR
      exact Layout.elements_length (hload mem st hR)
    . intro k hk
      have hentry := fun mem st hR => Layout.elements_apply (hload mem st hR) hk
      have hlength := Layout.elements_length hbase
      have hsize := hinner key value rfl k (hlength ▸ hk)
      rw [Layout.elements_apply hbase hk] at hsize
      apply RefinesWithin.bind_state hsize
      intro inner
      apply RefinesWithin.bind (refines_encodeTagAt index _)
      apply RefinesWithin.bind (refines_encodeLengthAt fun _ _ _ => rfl)
      apply RefinesWithin.bind
      . apply refines_encodeSlotAt
        intro mem st hR
        exact congrArg Prod.fst (hentry mem st hR)
      . apply refines_encodeMapValueAt
        . intro mem st hR
          exact congrArg Prod.snd (hentry mem st hR)
        . intro target p hp
          apply hchild
          rw [map_children]
          exact List.mem_flatMap.mpr ⟨v[k], List.getElem_mem hk, hp⟩
    . rw [← Layout.elements_length hbase]
      omega

end Field

end Refinement

end Gremlin
