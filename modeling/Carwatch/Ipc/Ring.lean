import Mathlib.Logic.Function.Basic
import Carwatch.Lib.Fifo
import Carwatch.Store.Record

/-!
# Carwatch.Ipc.Ring — the shared ring, one memory access at a time (`src/ipc/ring.c`)

`obdd` pushes samples into a ring of 4096 slots in shared memory and
`storaged` takes them out; neither locks. The two sides share `head`, which
only the producer stores, `tail`, which only the consumer stores, and the
slots.

* **Model layer**: `Ring` is `ring_t` without its header. Every function is
  a program counter (`PushPc`, `ConsPc`, `ObsPc`) whose steps are the atomic
  loads and stores and the slot copies of the source, in its order; a
  comparison of values already loaded belongs to the load before it. Counters
  are 64-bit words and wrap.
* **System**: `RingSys` runs one producer, one consumer and one observer
  (`ring_depth`) over one ring. Either side may die at any point: its program
  counter is lost, the ring is not.
* **History**: `returned`, `consumed`, `peeked` and `depths` record what the
  calls returned. No step reads them.
-/

namespace Carwatch.Ipc

open Carwatch.Lib Carwatch.Store

/-! ## The ring -/

/-- `RING_CAPACITY` -/
abbrev ringCapacity : ℕ := 4096

/-- `RING_PAYLOAD` -/
abbrev ringPayload : ℕ := 16

/-- `MASK` -/
def mask : UInt64 := 4095

/-- `ring_slot_t`; the float `value` is its 32 bits. -/
structure Slot where
  seq : UInt64
  monoNs : UInt64
  mode : UInt8
  pid : UInt8
  len : UInt8
  src : UInt8
  value : UInt32
  data : Bytes
  data_length : data.length = ringPayload
deriving DecidableEq

/-- The slot `memset` leaves. -/
def Slot.zero : Slot where
  seq := 0
  monoNs := 0
  mode := 0
  pid := 0
  len := 0
  src := 0
  value := 0
  data := List.replicate ringPayload 0
  data_length := List.length_replicate

/-- `x & MASK` is an index of the slot array. -/
theorem and_mask_lt (x : UInt64) : (x &&& mask).toNat < ringCapacity := by
  rw [UInt64.toNat_and]
  exact Nat.lt_succ_of_le Nat.and_le_right

/-- The index `x & MASK`. -/
def slotIndex (x : UInt64) : Fin ringCapacity := ⟨(x &&& mask).toNat, and_mask_lt x⟩

/-- `ring_t` less the header, which `ring_create` sets and no operation on
the ring reads. -/
structure Ring where
  head : UInt64
  tail : UInt64
  overruns : UInt64
  rejected : UInt64
  slot : Fin ringCapacity → Slot

/-- `ring_init` -/
def ringInit : Ring where
  head := 0
  tail := 0
  overruns := 0
  rejected := 0
  slot := fun _ => Slot.zero

/-! ## Program counters -/

/-- Where the producer is in `ring_push`. -/
inductive PushPc where
  | idle
  /-- About to count a slot without a valid `src`. -/
  | reject (inp : Slot)
  | loadHead (inp : Slot)
  | loadTail (inp : Slot) (head : UInt64)
  /-- About to count an overrun. -/
  | overrun (inp : Slot)
  /-- About to copy `*in` into its slot. -/
  | copy (inp : Slot) (head : UInt64)
  /-- About to number that slot. -/
  | number (inp : Slot) (head : UInt64)
  /-- About to store `head + 1`. -/
  | publish (inp : Slot) (head : UInt64)

/-- Where the consumer is in `ring_peek` or `ring_release`; `pop` says that
the peek was called by `ring_pop`. -/
inductive ConsPc where
  | idle
  | peekTail (pop : Bool) (i : UInt64)
  | peekHead (pop : Bool) (i tail : UInt64)
  | peekCopy (pop : Bool) (i tail : UInt64)
  | relTail (n : UInt64)
  | relHead (n tail : UInt64)
  | relStore (n tail : UInt64)

/-- Where the observer is in `ring_depth`. After the first load it holds
`tail`; `taken` and `pushed` are the numbers of slots released and accepted
at that moment, which the code does not see. -/
inductive ObsPc where
  | idle
  | loadHead (tail : UInt64) (taken pushed : ℕ)

/-! ## The system -/

/-- One ring with its producer, its consumer and an observer. -/
structure RingSys where
  ring : Ring
  prod : PushPc
  cons : ConsPc
  obs : ObsPc
  /-- The completed calls of `ring_push`, with what they returned. -/
  returned : List (Slot × Bool)
  /-- The slots released, as they stood in the ring. -/
  consumed : List Slot
  /-- The calls of `ring_peek` that returned true: the position asked for,
  counted from the first slot ever, and the slot copied out. -/
  peeked : List (ℕ × Slot)
  /-- What `ring_depth` returned. -/
  depths : List UInt64

/-- A fresh ring with nobody at work. -/
def RingSys.init : RingSys where
  ring := ringInit
  prod := .idle
  cons := .idle
  obs := .idle
  returned := []
  consumed := []
  peeked := []
  depths := []

/-- The slots `ring_push` accepted, as its callers passed them. -/
def RingSys.accepted (t : RingSys) : List Slot := (t.returned.filter (·.2)).map (·.1)

/-- The producer leaves `ring_push` with `ok`. -/
def RingSys.returns (t : RingSys) (inp : Slot) (ok : Bool) : RingSys :=
  { t with prod := .idle, returned := t.returned ++ [(inp, ok)] }

/-- The producer calls `ring_push`. -/
def RingSys.callPush (t : RingSys) (inp : Slot) : RingSys :=
  match t.prod with
  | .idle => { t with prod := if srcIsValid inp.src then .loadHead inp else .reject inp }
  | _ => t

/-- The next step of `ring_push`. -/
def RingSys.pushStep (t : RingSys) : RingSys :=
  match t.prod with
  | .idle => t
  | .reject inp =>
      { t with ring := { t.ring with rejected := t.ring.rejected + 1 } }.returns inp false
  | .loadHead inp => { t with prod := .loadTail inp t.ring.head }
  | .loadTail inp head =>
      { t with
        prod := if UInt64.ofNat ringCapacity ≤ head - t.ring.tail then .overrun inp
          else .copy inp head }
  | .overrun inp =>
      { t with ring := { t.ring with overruns := t.ring.overruns + 1 } }.returns inp false
  | .copy inp head =>
      { t with
        ring := { t.ring with slot := Function.update t.ring.slot (slotIndex head) inp }
        prod := .number inp head }
  | .number inp head =>
      { t with
        ring :=
          { t.ring with
            slot := Function.update t.ring.slot (slotIndex head)
              { t.ring.slot (slotIndex head) with seq := head } }
        prod := .publish inp head }
  | .publish inp head =>
      { t with ring := { t.ring with head := head + 1 } }.returns inp true

/-- The slots `[tail, tail + n)` as they stand. -/
def Ring.window (r : Ring) (tail n : UInt64) : List Slot :=
  (List.range n.toNat).map fun j => r.slot (slotIndex (tail + UInt64.ofNat j))

/-- The consumer calls one of its functions. -/
def RingSys.callCons (t : RingSys) (pc : ConsPc) : RingSys :=
  match t.cons with
  | .idle => { t with cons := pc }
  | _ => t

/-- The next step of `ring_peek`, `ring_release` or `ring_pop`. -/
def RingSys.consStep (t : RingSys) : RingSys :=
  match t.cons with
  | .idle => t
  | .peekTail pop i => { t with cons := .peekHead pop i t.ring.tail }
  | .peekHead pop i tail =>
      { t with
        cons := if t.ring.head - tail ≤ i then .idle else .peekCopy pop i tail }
  | .peekCopy pop i tail =>
      { t with
        cons := if pop then .relTail 1 else .idle
        peeked := t.peeked ++
          [(t.consumed.length + i.toNat, t.ring.slot (slotIndex (tail + i)))] }
  | .relTail n => { t with cons := .relHead n t.ring.tail }
  | .relHead n tail =>
      { t with cons := if t.ring.head - tail < n then .idle else .relStore n tail }
  | .relStore n tail =>
      { t with
        ring := { t.ring with tail := tail + n }
        cons := .idle
        consumed := t.consumed ++ t.ring.window tail n }

/-- The next load of `ring_depth`; the second one returns. -/
def RingSys.obsStep (t : RingSys) : RingSys :=
  match t.obs with
  | .idle => { t with obs := .loadHead t.ring.tail t.consumed.length t.accepted.length }
  | .loadHead tail _ _ => { t with obs := .idle, depths := t.depths ++ [t.ring.head - tail] }

/-- Who moves. -/
inductive RingAct where
  /-- The producer calls `ring_push`. -/
  | push (inp : Slot)
  /-- The producer's next step. -/
  | produce
  /-- The producer dies and is started again. -/
  | crash
  | peek (i : UInt64)
  | release (n : UInt64)
  | pop
  /-- The consumer's next step. -/
  | consume
  /-- The consumer dies and is started again. -/
  | kill
  /-- The observer's next load. -/
  | observe

/-- One step of the system. A call by a side that is inside another call
does not happen. -/
def RingSys.step (t : RingSys) : RingAct → RingSys
  | .push inp => t.callPush inp
  | .produce => t.pushStep
  | .crash => { t with prod := .idle }
  | .peek i => t.callCons (.peekTail false i)
  | .release n => t.callCons (.relTail n)
  | .pop => t.callCons (.peekTail true 0)
  | .consume => t.consStep
  | .kill => { t with cons := .idle }
  | .observe => t.obsStep

/-- The slot a step writes, if it writes one. -/
def RingSys.writes (t : RingSys) : RingAct → Option (Fin ringCapacity)
  | .produce =>
      match t.prod with
      | .copy _ head => some (slotIndex head)
      | .number _ head => some (slotIndex head)
      | _ => none
  | _ => none

/-- `writes` misses nothing: every other slot stays as it is. -/
theorem slot_of_not_writes (t : RingSys) (a : RingAct) (c : Fin ringCapacity)
    (h : t.writes a ≠ some c) : (t.step a).ring.slot c = t.ring.slot c := by
  cases a with
  | produce =>
      simp only [RingSys.writes] at h
      simp only [RingSys.step, RingSys.pushStep]
      cases hp : t.prod <;> simp only [hp] at h ⊢ <;> try rfl
      -- the two stores into the slot array are elsewhere
      · exact Function.update_of_ne (fun e => h (congrArg some e.symm)) _ _
      · exact Function.update_of_ne (fun e => h (congrArg some e.symm)) _ _
  | push inp =>
      simp only [RingSys.step, RingSys.callPush]
      split <;> rfl
  | consume =>
      simp only [RingSys.step, RingSys.consStep]
      split <;> rfl
  | peek i | release n | pop =>
      simp only [RingSys.step, RingSys.callCons]
      split <;> rfl
  | observe =>
      simp only [RingSys.step, RingSys.obsStep]
      split <;> rfl
  | crash | kill => rfl

end Carwatch.Ipc
