import Kaguya.Lib.Ring
import Kaguya.Net.Base

/-!
# Echo replies

The ring into which `incoming` puts them and from which `pop_echo` takes them is a queue of at most
15 records. A reply that finds it full is dropped.
-/

namespace Kaguya.Net

open Trapping List

structure EchoReply where
  src : UInt32
  payload : List UInt8
  long : 8 ≤ payload.length
  short : payload.length ≤ 65535

inductive EchoCall where
  | reply (reply : EchoReply)
  | pop (capacity : Nat)

def EchoReply.record (reply : EchoReply) :
    List UInt8 := (echoRecord reply.src reply.payload).toOption.getD []

theorem EchoReply.record_spec (reply : EchoReply) :
    echoRecord reply.src reply.payload = .ok reply.record ∧ reply.record.length = 74 := by
  suffices h : Returns (echoRecord reply.src reply.payload) (·.length = 74) by
    obtain ⟨record, hrecord, hlength⟩ := h
    rw [EchoReply.record, hrecord]
    exact ⟨rfl, hlength⟩
  obtain ⟨src, payload, hlong, hshort⟩ := reply
  have hstore : ∀ {data : List UInt8} {i : Nat} (value : UInt8), i < 74 → data.length = 74 →
      Returns (store data i value) (·.length = 74) :=
    fun value hi hdata => ⟨_, store_eq (by omega), length_set.trans hdata⟩
  refine .bind (Q := (·.length = 74)) (returns_foldlM ?_ length_replicate) fun data hdata => ?_
  · intro data hdata i hi
    have hlt : i < 4 := mem_range.mp hi
    rw [plus_eq (by omega), ok_bind]
    exact hstore _ (by omega) hdata
  dsimp only
  rw [get16_eq (by omega) (by omega), ok_bind, get16_eq (by omega) (by omega), ok_bind,
    minus_eq hlong, ok_bind]
  refine .bind (hstore _ (by decide) hdata) fun data1 h1 =>
    .bind (hstore _ (by decide) h1) fun data2 h2 => ?_
  refine .bind (hstore _ (by decide) h2) fun data3 h3 =>
    .bind (hstore _ (by decide) h3) fun data4 h4 => ?_
  refine .bind (hstore _ (by decide) h4) fun data5 h5 => ?_
  rw [plus_eq (by omega), ok_bind, slice_eq (by omega) (by omega), ok_bind]
  refine ⟨_, fill_eq ?_, ?_⟩ <;> simp <;> omega

namespace EchoRing

variable {ring : EchoRing}

structure Sound (ring : EchoRing) : Prop where
  slots : ring.data.length = 16
  records : ∀ record ∈ ring.data, record.length = 74
  head : ring.head < 16
  tail : ring.tail < 16

def waiting (ring : EchoRing) : List (List UInt8) :=
  Ring.read 16 (fun i => ring.data.getD i []) ring.tail ((ring.head + 16 - ring.tail) % 16)

theorem Sound.push (h : ring.Sound) (reply : EchoReply) :
    Returns (pushEcho ring reply.src reply.payload) fun ring' => ring'.Sound
      ∧ ring'.waiting = if ring.waiting.length = 15 then ring.waiting else ring.waiting
        ++ [reply.record] := by
  obtain ⟨hslots, hrecords, hhead, htail⟩ := h
  obtain ⟨hrecord, hlength⟩ := reply.record_spec
  have hcount : ring.waiting.length = (ring.head + 16 - ring.tail) % 16 := Ring.length_read
  unfold pushEcho
  rw [plus_eq (by omega), ok_bind, remainder_eq (by decide), ok_bind]
  refine .ite (fun hfull => ?_) fun hroom => ?_
  · rw [if_pos (by omega)]
    exact returns_pure.mpr ⟨⟨hslots, hrecords, hhead, htail⟩, rfl⟩
  rw [hrecord, ok_bind, store_eq (by omega), ok_bind, if_neg (by omega)]
  refine returns_pure.mpr
    ⟨⟨by rwa [length_set], fun record hmem => ?_, Nat.mod_lt _ (by decide), htail⟩, ?_⟩
  · rcases mem_or_eq_of_mem_set hmem with hold | rfl
    · exact hrecords record hold
    · exact hlength
  have hput : (fun i => (ring.data.set ring.head reply.record).getD i [])
      = Ring.store 16 (fun i => ring.data.getD i []) (ring.tail + (ring.head + 16 - ring.tail) % 16)
      [reply.record] := by
    funext i
    have hat : (ring.tail + (ring.head + 16 - ring.tail) % 16) % 16 = ring.head := by omega
    rw [Ring.store, Ring.store, hat, Function.update_apply]
    grind
  have hmore : ((ring.head + 1) % 16 + 16 - ring.tail) % 16 = (ring.head + 16 - ring.tail) % 16
      + [reply.record].length := by
    rw [length_singleton]
    omega
  unfold waiting
  rw [hput, hmore]
  exact Ring.read_store_append (by rw [← hmore]; omega)

theorem Sound.pop (h : ring.Sound) (capacity : Nat) :
    Returns (popEcho ring capacity) fun result => result.2.Sound
      ∧ result.1 = (ring.waiting.headD []).take capacity
        ∧ result.2.waiting = ring.waiting.tail := by
  obtain ⟨hslots, hrecords, hhead, htail⟩ := h
  unfold popEcho waiting
  refine .ite (fun hempty => ?_) fun hsome => ?_
  · refine returns_pure.mpr ⟨⟨hslots, hrecords, hhead, htail⟩, ?_⟩
    simp [hempty, Ring.read]
  have holdest : (ring.data[ring.tail]).length = 74 := hrecords _ (getElem_mem _)
  rw [index_eq (by omega), ok_bind, slice_eq (by omega) (by omega), ok_bind, plus_eq (by omega),
    ok_bind, remainder_eq (by decide), ok_bind]
  refine returns_pure.mpr ⟨⟨hslots, hrecords, hhead, Nat.mod_lt _ (by decide)⟩, ?_, ?_⟩
  · obtain ⟨n, hn⟩ : ∃ n, (ring.head + 16 - ring.tail) % 16 = n + 1 :=
      ⟨_, (Nat.sub_add_cancel (by omega)).symm⟩
    simp [Ring.read, hn, range_succ_eq_map, Nat.mod_eq_of_lt htail, hslots, htail, ← holdest]
  · rw [← drop_one, Ring.drop_read (by omega), Ring.read_mod]
    congr 1
    dsimp only
    omega

def run : EchoRing → List EchoCall → Trapping (List (List UInt8))
  | _, [] => pure []
  | ring, .reply reply :: calls => do (← pushEcho ring reply.src reply.payload).run calls
  | ring, .pop capacity :: calls => do
    let (output, ring) ← popEcho ring capacity
    pure (output :: (← ring.run calls))

end EchoRing

def echoes : List (List UInt8) → List EchoCall → List (List UInt8)
  | _, [] => []
  | waiting, .reply reply :: calls =>
    echoes (if waiting.length = 15 then waiting else waiting ++ [reply.record]) calls
  | waiting, .pop capacity :: calls => (waiting.headD []).take capacity :: echoes waiting.tail calls

theorem EchoRing.Sound.run {ring : EchoRing} (h : ring.Sound) (calls : List EchoCall) :
    ring.run calls = .ok (echoes ring.waiting calls) := by
  induction calls generalizing ring with
  | nil => rfl
  | cons call _ ih =>
    cases call with
    | reply reply =>
      obtain ⟨ring', hpush, hsound, hwaiting⟩ := h.push reply
      rw [EchoRing.run, hpush, ok_bind, echoes, ← hwaiting, ih hsound]
    | pop capacity =>
      obtain ⟨⟨output, ring'⟩, hpop, hsound, houtput, hwaiting⟩ := h.pop capacity
      rw [EchoRing.run, hpop, ok_bind, echoes, ← houtput, ← hwaiting]
      dsimp only
      rw [ih hsound, ok_bind]
      rfl

/-- **Echo replies are handed out in order.** Whatever replies come in and whenever they are asked
for, nothing traps, and `pop_echo` returns what a queue would. -/
theorem echoes_in_order (calls : List EchoCall) :
    EchoRing.run ⟨replicate 16 (replicate 74 0), 0, 0⟩ calls = .ok (echoes [] calls) := by
  refine EchoRing.Sound.run ⟨length_replicate, fun record hmem => ?_, by decide, by decide⟩ calls
  rw [eq_of_mem_replicate hmem, length_replicate]

end Kaguya.Net
