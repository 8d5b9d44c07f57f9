import Kaguya.Tcp.Control

/-!
# The sending side

A connection that sends keeps three positions of its stream: the oldest byte that is not
acknowledged, the cursor, and the farthest point it has ever sent up to. Seen from the first the
others are distances far below half of the range of sequence numbers, so the comparisons of serial
numbers are those of the distances.
-/

namespace Kaguya.Tcp

open Serial List

namespace Control

variable (c : Control)

def cursor : Nat := dist c.una c.next

def reach : Nat := dist c.una c.maximum

def Flows : Prop := c.status = .established ∨ c.status = .closeWait

def Finishes : Prop :=
  c.status = .finWait1 ∨ c.status = .closing ∨ c.status = .lastAck

/-- The queue is what is left of the stream from some position on, and that position is `una`. -/
def Streams (stream : List UInt8) : Prop :=
  ∃ a ≤ stream.length, c.una = c.iss + 1 + BitVec.ofNat 32 a ∧ c.sendQueue.toList = stream.drop a

structure Active (stream : List UInt8) : Prop where
  streams : c.Streams stream
  limit : c.sendQueue.limit = sendCap
  unacked : c.finAcked = false
  cursor_le : c.cursor ≤ c.reach
  fin : (c.Flows ∧ c.finSequence = none ∧ c.reach ≤ c.sendQueue.length)
    ∨ (c.Finishes ∧ c.finQueued = true
      ∧ c.finSequence = some (c.una + BitVec.ofNat 32 c.sendQueue.length)
      ∧ c.reach = c.sendQueue.length + 1)
  peer : c.peerFin = true → c.status = .closeWait ∨ c.status = .closing ∨ c.status = .lastAck

structure SameSender (c c' : Control) : Prop where
  status : c'.status = c.status
  iss : c'.iss = c.iss
  una : c'.una = c.una
  next : c'.next = c.next
  maximum : c'.maximum = c.maximum
  sendQueue : c'.sendQueue = c.sendQueue
  finQueued : c'.finQueued = c.finQueued
  finSequence : c'.finSequence = c.finSequence
  finAcked : c'.finAcked = c.finAcked
  peerFin : c'.peerFin = c.peerFin

def Timed : Prop := 0 < c.reach → c.deadline.isSome

def Armed : Prop :=
  0 < c.sendQueue.length ∨ c.finQueued = true → c.deadline.isSome

variable {c} {c' : Control} {stream : List UInt8} {now : Nat}

section
variable (h : c.Active stream)
include h

theorem Active.congr (hsame : c.SameSender c') : c'.Active stream := by
  obtain ⟨hstatus, hiss, huna, hnext, hmaximum, hqueue, hfinQueued, hfinSequence, hfinAcked,
      hpeer⟩ := hsame
  obtain ⟨hstreams, hlimit, hunacked, hcursor, hfin, hpeerFin⟩ := h
  constructor
  · unfold Streams
    rw [huna, hiss, hqueue]
    exact hstreams
  · rw [hqueue]
    exact hlimit
  · rw [hfinAcked]
    exact hunacked
  · unfold cursor reach
    rw [huna, hnext, hmaximum]
    exact hcursor
  · unfold Flows Finishes reach
    rw [hstatus, hfinSequence, hfinQueued, huna, hmaximum, hqueue]
    exact hfin
  · rw [hpeer, hstatus]
    exact hpeerFin

theorem Active.status : c.Flows ∨ c.Finishes := by
  rcases h.fin with ⟨hflows, _⟩ | ⟨hfinishes, _⟩
  · exact .inl hflows
  · exact .inr hfinishes

theorem Active.reach_le : c.reach ≤ c.sendQueue.length + 1 := by
  rcases h.fin with ⟨_, _, hreach⟩ | ⟨_, _, _, hreach⟩
  · omega
  · omega

theorem Active.length_le : c.sendQueue.length ≤ 8192 := by
  have hle := c.sendQueue.length_le
  rw [h.limit] at hle
  exact hle

theorem Active.near : c.reach ≤ 8193 := by
  have hreach := h.reach_le
  have hlength := h.length_le
  omega

end

theorem dist_advance {n : Nat} (h : dist c.una c.next + n < 2 ^ 32) :
    (c.advance n).cursor = c.cursor + n := dist_add h

theorem reach_advance {n : Nat} (hreach : c.reach ≤ 8193) (hcursor : c.cursor + n ≤ 8193) :
    (c.advance n).reach = max c.reach (c.cursor + n) := by
  have hnext : dist c.una (c.next + BitVec.ofNat 32 n) = c.cursor + n :=
    dist_add (by unfold cursor at hcursor; omega)
  have hbefore : Before c.maximum (c.next + BitVec.ofNat 32 n) ↔ c.reach < c.cursor + n := by
    rw [before_iff_dist (a := c.una), hnext, reach]
    · unfold reach at hreach
      omega
    · rw [hnext]
      omega
  change dist c.una (if Before c.maximum (c.next + BitVec.ofNat 32 n)
    then c.next + BitVec.ofNat 32 n else c.maximum) = _
  by_cases hlt : c.reach < c.cursor + n
  · rw [if_pos (hbefore.mpr hlt), hnext]
    omega
  · rw [if_neg (mt hbefore.mp hlt)]
    change c.reach = _
    omega

theorem beforeCursor_eq : c.beforeCursor = min c.cursor c.sendQueue.length := rfl

theorem chunk_spec {probe : Bool} (h : c.chunk probe ≠ 0) :
    c.beforeCursor = c.cursor ∧ c.cursor + c.chunk probe ≤ c.sendQueue.length
        ∧ (c.cursor + c.chunk probe ≤ c.window
        ∨ (probe = true ∧ c.window = 0 ∧ c.cursor = 0 ∧ c.chunk probe = 1)) := by
  have hcursor := beforeCursor_eq (c := c)
  unfold chunk at h ⊢
  dsimp only at h ⊢
  by_cases hprobe : probe = true ∧ c.window = 0 ∧ c.beforeCursor = 0
  · rw [if_pos hprobe] at h ⊢
    obtain ⟨hon, hwindow, hnone⟩ := hprobe
    refine ⟨by omega, by omega, .inr ⟨hon, hwindow, ?_, ?_⟩⟩
    · split_ifs at h <;> omega
    · split_ifs at h ⊢ <;> omega
  · rw [if_neg hprobe] at h ⊢
    split_ifs at h ⊢ <;> omega

theorem arm_isSome (now : Nat) (c : Control) : (c.arm now).deadline.isSome := by
  unfold arm
  cases hdeadline : c.deadline with
  | none => rfl
  | some => rfl

theorem sameSender_arm (now : Nat) (c : Control) : c.SameSender (c.arm now) :=
  ⟨rfl, rfl, rfl, rfl, rfl, rfl, rfl, rfl, rfl, rfl⟩

theorem Active.advance (h : c.Active stream) {n : Nat} (hn : c.cursor + n ≤ c.sendQueue.length) :
    (c.advance n).Active stream := by
  have hlength := h.length_le
  have hnear := h.near
  have hcursor : (c.advance n).cursor = c.cursor + n :=
    dist_advance (by change c.cursor + n < _; omega)
  have hreach := reach_advance hnear (by omega : c.cursor + n ≤ 8193)
  refine ⟨h.streams, h.limit, h.unacked, ?_, ?_, h.peer⟩
  · rw [hcursor, hreach]
    omega
  rw [hreach]
  rcases h.fin with ⟨hflows, hnone, hle⟩ | ⟨hfinishes, hqueued, hsome, heq⟩
  · exact .inl ⟨hflows, hnone, by change max _ _ ≤ c.sendQueue.length; omega⟩
  · exact .inr ⟨hfinishes, hqueued, hsome, by change max _ _ = c.sendQueue.length + 1; omega⟩

end Control

namespace Emission

def isProbe (e : Emission) : Bool :=
  decide (e.payload ≠ []) &&
    decide (e.control.window < dist e.control.una e.sequence + e.payload.length)

theorem isProbe_of_bare {e : Emission} (h : e.payload = []) : e.isProbe = false := by
  simp [isProbe, h]

/-- The segment carries the bytes of the stream that its sequence number says, and they fit into the
window or are a probe. A FIN stands at the end of the stream. -/
structure InStream (iss : Seq) (stream : List UInt8) (e : Emission) : Prop where
  data : e.payload ≠ [] → ∃ k, e.sequence = iss + 1 + BitVec.ofNat 32 k
    ∧ k + e.payload.length ≤ stream.length
    ∧ e.payload = (stream.drop k).take e.payload.length
  window : e.payload ≠ [] → dist e.control.una e.sequence + e.payload.length ≤ e.control.window
    ∨ (e.control.window = 0 ∧ e.sequence = e.control.una ∧ e.payload.length = 1)
  fin : e.flags &&& FIN ≠ 0 → e.sequence = iss + 1 + BitVec.ofNat 32 stream.length

end Emission

namespace Link

variable {l l' l'' : Link} {P : Emission → Prop} {iss : Seq} {stream : List UInt8} {now : Nat}

def emission (flags : UInt8) (sequence : Seq) (payload : List UInt8) (c : Control) : Emission :=
  ⟨{ c with advertised := recvCap - c.receiveQueue.length }, c.port, c.remote, sequence,
    if flags &&& ACK ≠ 0 then c.receiveNext else 0, flags, recvCap - c.receiveQueue.length, payload⟩

theorem send_wire (flags : UInt8) (sequence : Seq) (payload : List UInt8) (l : Link) :
    (l.send flags sequence payload).wire = l.wire ++ [emission flags sequence payload l.control] :=
  rfl

theorem send_sameSender (flags : UInt8) (sequence : Seq) (payload : List UInt8) (l : Link) :
    l.control.SameSender (l.send flags sequence payload).control :=
  ⟨rfl, rfl, rfl, rfl, rfl, rfl, rfl, rfl, rfl, rfl⟩

def Emits (P : Emission → Prop) (l l' : Link) : Prop :=
  ∃ sent, l'.wire = l.wire ++ sent ∧ ∀ e ∈ sent, P e

theorem Emits.refl (l : Link) : Emits P l l := ⟨[], by simp, by simp⟩

theorem emits_modify (f : Control → Control) (l : Link) :
    Emits P l (l.modify f) := ⟨[], (append_nil l.wire).symm, by simp⟩

theorem Emits.trans (h : Emits P l l') (h' : Emits P l' l'') : Emits P l l'' := by
  obtain ⟨sent, hwire, hsent⟩ := h
  obtain ⟨sent', hwire', hsent'⟩ := h'
  refine ⟨sent ++ sent', by rw [hwire', hwire, append_assoc], fun e he => ?_⟩
  rcases mem_append.mp he with he | he
  · exact hsent e he
  · exact hsent' e he

theorem Emits.mono {Q : Emission → Prop} (h : Emits P l l') (himp : ∀ e, P e → Q e) :
    Emits Q l l' := by
  obtain ⟨sent, hwire, hsent⟩ := h
  exact ⟨sent, hwire, fun e he => himp e (hsent e he)⟩

theorem emits_send {flags : UInt8} {sequence : Seq} {payload : List UInt8}
    (h : P (emission flags sequence payload l.control)) :
    Emits P l (l.send flags sequence payload) :=
  ⟨[_], send_wire .., by simpa using h⟩

theorem inStream_of_bare {e : Emission} (hpayload : e.payload = []) (hfin : e.flags &&& FIN = 0) :
    e.InStream iss stream :=
  ⟨fun hne => absurd hpayload hne, fun hne => absurd hpayload hne, fun hne => absurd hfin hne⟩

variable {probe : Bool}

section
variable (h : l.control.Active stream)
include h

variable (hcount : l.control.chunk probe ≠ 0)
include hcount

theorem chunk_inStream : (emission (ACK ||| PSH) l.control.next
      (l.control.sendQueue.copy l.control.beforeCursor (l.control.chunk probe)) l.control).InStream
        l.control.iss stream := by
  obtain ⟨hflying, hfits, hwindow⟩ := Control.chunk_spec hcount
  obtain ⟨a, ha, huna, hqueue⟩ := h.streams
  have hlength : l.control.sendQueue.length = stream.length - a := by
    rw [← Bytes.length_toList, hqueue, length_drop]
  have hsequence : l.control.una + BitVec.ofNat 32 l.control.cursor = l.control.next :=
    add_dist l.control.una l.control.next
  have hpayload : l.control.sendQueue.copy l.control.beforeCursor (l.control.chunk probe)
      = (stream.drop (a + l.control.cursor)).take (l.control.chunk probe) := by
    rw [Bytes.copy_eq, hflying, hqueue, drop_drop]
  have hsize : (l.control.sendQueue.copy l.control.beforeCursor (l.control.chunk probe)).length
      = l.control.chunk probe := by
    rw [hpayload, length_take, length_drop]
    omega
  refine ⟨fun _ => ⟨a + l.control.cursor, ?_, ?_, ?_⟩, fun _ => ?_, fun hfin => ?_⟩
  · change l.control.next = _
    rw [← hsequence, huna, BitVec.ofNat_add, add_assoc]
  · change a + l.control.cursor + (l.control.sendQueue.copy _ _).length ≤ _
    rw [hsize]
    omega
  · change l.control.sendQueue.copy _ _ = (stream.drop _).take (l.control.sendQueue.copy _ _).length
    rw [hsize]
    exact hpayload
  · change dist l.control.una l.control.next + (l.control.sendQueue.copy _ _).length
      ≤ l.control.window ∨ (l.control.window = 0 ∧ l.control.next = l.control.una
      ∧ (l.control.sendQueue.copy _ _).length = 1)
    rw [hsize]
    rcases hwindow with hwithin | ⟨_, hzero, hcursor, hone⟩
    · exact .inl hwithin
    · exact .inr ⟨hzero, dist_eq_zero_iff.mp hcursor, hone⟩
  · exact absurd (show (ACK ||| PSH) &&& FIN = 0 by decide) hfin

theorem sendChunk_active : (l.sendChunk (l.control.chunk probe) now).control.Active stream := by
  have hsend := h.congr (send_sameSender (ACK ||| PSH) l.control.next
    (l.control.sendQueue.copy l.control.beforeCursor (l.control.chunk probe)) l)
  exact (hsend.advance (Control.chunk_spec hcount).2.1).congr (Control.sameSender_arm now _)

theorem cursor_sendChunk :
    (l.sendChunk (l.control.chunk probe) now).control.cursor = l.control.cursor + l.control.chunk
      probe := by
  obtain ⟨_, hfits, _⟩ := Control.chunk_spec hcount
  have hlength := h.length_le
  have hcursor : (l.control.advance (l.control.chunk probe)).cursor = l.control.cursor
      + l.control.chunk probe := by
    apply Control.dist_advance
    change l.control.cursor + l.control.chunk probe < _
    omega
  exact hcursor

theorem sendChunk_emits : Emits (Emission.InStream l.control.iss stream) l
      (l.sendChunk (l.control.chunk probe) now) := emits_send (chunk_inStream h hcount)

end

theorem outputLoop_active (now : Nat) (probe : Bool) (n : Nat) (h : l.control.Active stream) :
    (l.outputLoop now probe n).control.Active stream := by
  induction n generalizing l with
  | zero => exact h
  | succ n ih =>
    rw [outputLoop]
    split
    · exact h
    · rename_i hcount
      exact ih (sendChunk_active h hcount)

theorem outputLoop_iss (now : Nat) (probe : Bool) (n : Nat) (l : Link) :
    (l.outputLoop now probe n).control.iss = l.control.iss := by
  induction n generalizing l with
  | zero => rfl
  | succ n ih =>
    rw [outputLoop]
    split
    · rfl
    · rw [ih]
      rfl

theorem outputLoop_emits (now : Nat) (probe : Bool) (n : Nat) (h : l.control.Active stream) :
    Emits (Emission.InStream l.control.iss stream) l (l.outputLoop now probe n) := by
  induction n generalizing l with
  | zero => exact Emits.refl l
  | succ n ih =>
    rw [outputLoop]
    split
    · exact Emits.refl l
    · rename_i hcount
      exact (sendChunk_emits h hcount).trans (ih (sendChunk_active h hcount))

theorem outputLoop_timed (now : Nat) (probe : Bool) (n : Nat) (htimed : l.control.Timed) :
    (l.outputLoop now probe n).control.Timed := by
  induction n generalizing l with
  | zero => exact htimed
  | succ n ih =>
    rw [outputLoop]
    split
    · exact htimed
    · exact ih fun _ => Control.arm_isSome now _

theorem finDue_iff {c : Control} : finDue c = true ↔ c.finQueued = true ∧ c.finAcked = false
    ∧ c.cursor = c.sendQueue.length ∧ (c.finSequence = none ∨ c.finSequence = some c.next) := by
  unfold finDue
  cases c.finSequence with
  | none => simp [Control.cursor, Serial.dist, and_assoc]
  | some => simp [Control.cursor, Serial.dist, and_assoc]

theorem finishes_finSent {c : Control} (h : c.Flows ∨ c.Finishes) :
    finSent c.status = .finWait1 ∨ finSent c.status = .closing ∨ finSent c.status = .lastAck := by
  rcases h with (h | h) | (h | h | h) <;> rw [h] <;> simp [finSent]

theorem sendFin_active (h : l.control.Active stream) (hdue : finDue l.control = true) :
    (l.sendFin now).control.Active stream := by
  obtain ⟨hqueued, _, hcursor, _⟩ := finDue_iff.mp hdue
  have hlength := h.length_le
  have hnear := h.near
  have hreachLe := h.reach_le
  have hcursor' : (l.sendFin now).control.cursor = l.control.cursor + 1 :=
    Control.dist_advance (by change l.control.cursor + 1 < _; omega)
  have hreach' : (l.sendFin now).control.reach = l.control.sendQueue.length + 1 := by
    have hreach := Control.reach_advance (n := 1) hnear (by omega)
    change (l.control.advance 1).reach = _
    omega
  have hnext : l.control.una + BitVec.ofNat 32 l.control.sendQueue.length = l.control.next := by
    rw [← hcursor]
    exact add_dist _ _
  refine ⟨h.streams, h.limit, h.unacked, ?_, .inr ⟨?_, hqueued, ?_, hreach'⟩, ?_⟩
  · rw [hcursor', hreach', hcursor]
  · exact finishes_finSent h.status
  · exact congrArg some hnext.symm
  · intro hpeer
    change finSent l.control.status = _ ∨ finSent l.control.status = _ ∨ finSent l.control.status
      = _
    rcases h.peer hpeer with hstatus | hstatus | hstatus <;> rw [hstatus] <;> simp [finSent]

theorem emits_sendFin (now : Nat) (l : Link) :
    Emits (fun e => e.payload = [] ∧ e.sequence = l.control.next
      ∧ e.acknowledgement = l.control.receiveNext) l (l.sendFin now) := by
  refine ⟨[emission (FIN ||| ACK) l.control.next [] { l.control with
    finSequence := some l.control.next }], rfl, fun e he => ?_⟩
  rw [mem_singleton.mp he]
  exact ⟨rfl, rfl, rfl⟩

theorem sendFin_emits (h : l.control.Active stream) (hdue : finDue l.control = true) :
    Emits (Emission.InStream l.control.iss stream) l (l.sendFin now) := by
  obtain ⟨_, _, hcursor, _⟩ := finDue_iff.mp hdue
  obtain ⟨a, ha, huna, hqueue⟩ := h.streams
  have hlength : a + l.control.sendQueue.length = stream.length := by
    rw [← Bytes.length_toList, hqueue, length_drop]
    omega
  have hnext : l.control.next = l.control.iss + 1 + BitVec.ofNat 32 stream.length := by
    rw [← hlength, BitVec.ofNat_add, ← add_assoc, ← huna, ← hcursor]
    exact (add_dist _ _).symm
  refine (emits_sendFin now l).mono fun e he => ?_
  exact ⟨fun hne => absurd he.1 hne, fun hne => absurd he.1 hne, fun _ => he.2.1.trans hnext⟩

section
variable (h : l.control.Active stream)
include h

theorem outputFin_active : (l.outputFin now).control.Active stream := by
  unfold outputFin
  split
  · rename_i hdue
    exact sendFin_active h hdue
  · exact h

theorem outputArm_active : (l.outputArm now).control.Active stream := by
  unfold outputArm
  split
  · exact h.congr (Control.sameSender_arm now _)
  · exact h

theorem output_eq : l.output now probe
    = ((l.outputLoop now probe (l.control.sendQueue.length + 1)).outputFin now).outputArm now := by
  unfold output
  rcases h.status with (hstatus | hstatus) | (hstatus | hstatus | hstatus) <;> rw [hstatus]

theorem output_active : (l.output now probe).control.Active stream := by
  rw [output_eq h]
  exact outputArm_active (outputFin_active (outputLoop_active now probe _ h))

theorem output_emits : Emits (Emission.InStream l.control.iss stream) l (l.output now probe) := by
  have hloop := outputLoop_active now probe (l.control.sendQueue.length + 1) h
  rw [output_eq h]
  refine (outputLoop_emits now probe (l.control.sendQueue.length + 1) h).trans ?_
  have hfin : Emits (Emission.InStream l.control.iss stream)
      (l.outputLoop now probe (l.control.sendQueue.length + 1))
      ((l.outputLoop now probe (l.control.sendQueue.length + 1)).outputFin now) := by
    unfold outputFin
    split
    · rename_i hdue
      rw [← outputLoop_iss now probe (l.control.sendQueue.length + 1) l]
      exact sendFin_emits hloop hdue
    · exact Emits.refl _
  refine hfin.trans ?_
  unfold outputArm
  split
  · exact emits_modify ..
  · exact Emits.refl _

theorem output_armed (htimed : l.control.Timed) : (l.output now probe).control.Armed := by
  have hloop := outputLoop_active now probe (l.control.sendQueue.length + 1) h
  have hloopTimed := outputLoop_timed now probe (l.control.sendQueue.length + 1) htimed
  rw [output_eq h]
  generalize l.outputLoop now probe (l.control.sendQueue.length + 1) = l1 at hloop hloopTimed
  unfold outputArm
  split
  · exact fun _ => Control.arm_isSome now _
  rename_i hcovered
  intro hwaiting
  by_cases hdue : finDue l1.control = true
  · rw [outputFin, if_pos hdue]
    exact Control.arm_isSome now _
  rw [outputFin, if_neg hdue] at hwaiting hcovered ⊢
  have hcursor := Control.beforeCursor_eq (c := l1.control)
  have hcursorLe := hloop.cursor_le
  apply hloopTimed
  rcases hloop.fin with ⟨_, hnone, hreach⟩ | ⟨_, _, _, hreach⟩
  · -- no FIN has been sent; if one were queued it would be due
    rcases hwaiting with hlength | hqueued
    · omega
    · have hne : l1.control.cursor ≠ l1.control.sendQueue.length := fun heq =>
        hdue (finDue_iff.mpr ⟨hqueued, hloop.unacked, heq, .inl hnone⟩)
      omega
  · omega

end

theorem output_cases (now : Nat) (probe : Bool) (l : Link) : l.output now probe = l
    ∨ (l.output now probe = l.sendSyn now ∧ l.control.status = .synSent
      ∧ l.control.next = l.control.iss)
    ∨ (l.output now probe = ((l.outputLoop now probe (l.control.sendQueue.length + 1)).outputFin
      now).outputArm now
      ∧ (l.control.Flows ∨ l.control.Finishes)) := by
  unfold output Control.Flows Control.Finishes
  cases hstatus : l.control.status with
  | synSent =>
    by_cases hnext : l.control.next = l.control.iss
    · exact .inr (.inl ⟨if_pos hnext, rfl, hnext⟩)
    · exact .inl (if_neg hnext)
  | established | closeWait | finWait1 | closing | lastAck =>
    exact .inr (.inr ⟨rfl, by simp⟩)
  | idle | finWait2 | closed => exact .inl rfl

theorem output_iss (now : Nat) (probe : Bool) (l : Link) :
    (l.output now probe).control.iss = l.control.iss := by
  have hrest : ∀ l1 : Link, ((l1.outputFin now).outputArm now).control.iss = l1.control.iss := by
    intro l1
    unfold outputArm outputFin
    split <;> split <;> rfl
  rcases output_cases now probe l with hsame | ⟨hsyn, _⟩ | ⟨hloop, _⟩
  · rw [hsame]
  · rw [hsyn]
    rfl
  · rw [hloop, hrest, outputLoop_iss]

def FinKept (l l' : Link) : Prop :=
  (∀ f, l.control.finSequence = some f → l'.control.finSequence = some f)
  ∧ Emits (fun e => e.flags &&& FIN ≠ 0 → l'.control.finSequence = some e.sequence) l l'

theorem FinKept.refl (l : Link) : FinKept l l := ⟨fun _ h => h, Emits.refl l⟩

theorem FinKept.trans (h : FinKept l l') (h' : FinKept l' l'') : FinKept l l'' := by
  obtain ⟨hkept, sent, hwire, hsent⟩ := h
  obtain ⟨hkept', hemits'⟩ := h'
  refine ⟨fun f hf => hkept' f (hkept f hf), Emits.trans ⟨sent, hwire, fun e he hfin => ?_⟩ hemits'⟩
  exact hkept' _ (hsent e he hfin)

theorem finKept_of_bare (hfinSequence : l'.control.finSequence = l.control.finSequence)
    (hemits : Emits (fun e => e.flags &&& FIN = 0) l l') : FinKept l l' := by
  obtain ⟨sent, hwire, hsent⟩ := hemits
  refine ⟨fun f hf => by rw [hfinSequence, hf], sent, hwire, fun e he hfin => ?_⟩
  exact absurd (hsent e he) hfin

theorem outputLoop_finKept (now : Nat) (probe : Bool) (n : Nat) (l : Link) :
    FinKept l (l.outputLoop now probe n) := by
  induction n generalizing l with
  | zero => exact FinKept.refl l
  | succ n ih =>
    rw [outputLoop]
    split
    · exact FinKept.refl l
    · have hchunk : FinKept l (l.sendChunk (l.control.chunk probe) now) :=
        finKept_of_bare rfl (emits_send (show (ACK ||| PSH) &&& FIN = 0 by decide))
      exact hchunk.trans (ih _)

theorem sendFin_finKept (hdue : finDue l.control = true) : FinKept l (l.sendFin now) := by
  obtain ⟨_, _, _, hat⟩ := finDue_iff.mp hdue
  constructor
  · intro f hf
    change some l.control.next = some f
    rcases hat with hnone | hsome
    · rw [hnone] at hf
      cases hf
    · rw [← hsome, hf]
  · refine (emits_sendFin now l).mono fun e he _ => ?_
    change some l.control.next = some e.sequence
    rw [he.2.1]

theorem output_finKept (now : Nat) (probe : Bool) (l : Link) : FinKept l (l.output now probe) := by
  have hrest : ∀ l1 : Link, FinKept l1 ((l1.outputFin now).outputArm now) := by
    intro l1
    have hfin : FinKept l1 (l1.outputFin now) := by
      unfold outputFin
      split
      · exact sendFin_finKept ‹_›
      · exact FinKept.refl l1
    refine hfin.trans ?_
    unfold outputArm
    split
    · exact finKept_of_bare rfl (emits_modify ..)
    · exact FinKept.refl _
  rcases output_cases now probe l with hsame | ⟨hsyn, _⟩ | ⟨hloop, _⟩
  · rw [hsame]
    exact FinKept.refl l
  · rw [hsyn]
    exact finKept_of_bare rfl (emits_send (show SYN &&& FIN = 0 by decide))
  · rw [hloop]
    exact (outputLoop_finKept now probe _ l).trans (hrest _)

def probes (l : Link) : Nat := l.wire.countP Emission.isProbe

theorem Emits.probes (h : Emits P l l') (hbare : ∀ e, P e → e.payload = []) :
    l'.probes = l.probes := by
  obtain ⟨sent, hwire, hsent⟩ := h
  have hnone : sent.countP Emission.isProbe = 0 := by
    rw [countP_eq_zero]
    intro e he
    rw [Emission.isProbe_of_bare (hbare e (hsent e he))]
    decide
  unfold Link.probes
  rw [hwire, countP_append, hnone, Nat.add_zero]

theorem probes_send (flags : UInt8) (sequence : Seq) (payload : List UInt8) (l : Link) :
    (l.send flags sequence payload).probes = l.probes
      + (emission flags sequence payload l.control).isProbe.toNat := by
  unfold probes
  rw [send_wire, countP_append, countP_singleton]
  cases (emission flags sequence payload l.control).isProbe <;> rfl

theorem probes_sendChunk (now : Nat) (hcount : l.control.chunk probe ≠ 0) :
    (l.sendChunk (l.control.chunk probe) now).probes ≤ l.probes + 1
        ∧ (probe = false ∨ 0 < l.control.cursor →
        (l.sendChunk (l.control.chunk probe) now).probes = l.probes) := by
  have hprobes : (l.sendChunk (l.control.chunk probe) now).probes = _ :=
      probes_send (ACK ||| PSH) l.control.next (l.control.sendQueue.copy l.control.beforeCursor
      (l.control.chunk probe)) l
  obtain ⟨_, _, hwindow⟩ := Control.chunk_spec hcount
  rw [hprobes]
  refine ⟨?_, fun hquiet => ?_⟩
  · exact Nat.add_le_add_left (Bool.toNat_le _) _
  have hwithin : l.control.cursor + l.control.chunk probe ≤ l.control.window := by
    rcases hwindow with hwithin | ⟨hon, _, hzero, _⟩
    · exact hwithin
    rcases hquiet with hoff | hpositive
    · rw [hoff] at hon
      cases hon
    · omega
  have hsize : (l.control.sendQueue.copy l.control.beforeCursor (l.control.chunk probe)).length
      ≤ l.control.chunk probe := by
    rw [Bytes.copy_eq, length_take]
    exact Nat.min_le_left ..
  have hinside : ¬ l.control.window < dist l.control.una l.control.next
      + (l.control.sendQueue.copy l.control.beforeCursor (l.control.chunk probe)).length := by
    change ¬ l.control.window < l.control.cursor + _
    omega
  have hnot : (emission (ACK ||| PSH) l.control.next
    (l.control.sendQueue.copy l.control.beforeCursor (l.control.chunk probe))
      l.control).isProbe = false := by
    unfold Emission.isProbe
    rw [Bool.and_eq_false_iff]
    exact .inr (decide_eq_false hinside)
  rw [hnot]
  rfl

theorem probes_outputLoop_eq (now n : Nat) (h : l.control.Active stream)
    (hquiet : probe = false ∨ 0 < l.control.cursor) :
    (l.outputLoop now probe n).probes = l.probes := by
  induction n generalizing l with
  | zero => rfl
  | succ n ih =>
    rw [outputLoop]
    split
    · rfl
    rename_i hcount
    rw [ih (sendChunk_active h hcount), (probes_sendChunk now hcount).2 hquiet]
    right
    rw [cursor_sendChunk h hcount]
    omega

theorem probes_outputLoop_le (now : Nat) (probe : Bool) (n : Nat) (h : l.control.Active stream) :
    (l.outputLoop now probe n).probes ≤ l.probes + 1 := by
  cases n with
  | zero => exact Nat.le_succ _
  | succ n =>
    rw [outputLoop]
    split
    · exact Nat.le_succ _
    rename_i hcount
    rw [probes_outputLoop_eq now n (sendChunk_active h hcount)]
    · exact (probes_sendChunk now hcount).1
    · right
      rw [cursor_sendChunk h hcount]
      omega

theorem probes_output_le (now : Nat) (probe : Bool) (h : l.control.Active stream) :
    (l.output now probe).probes ≤ l.probes + 1 := by
  have hfin : ∀ l1 : Link, (l1.outputFin now).probes = l1.probes := by
    intro l1
    unfold outputFin
    split
    · exact Emits.probes (emits_sendFin now l1) fun e he => he.1
    · rfl
  have harm : ∀ l1 : Link, (l1.outputArm now).probes = l1.probes := by
    intro l1
    unfold outputArm
    split <;> rfl
  rw [output_eq h, harm, hfin]
  exact probes_outputLoop_le now probe _ h

end Link

end Kaguya.Tcp
