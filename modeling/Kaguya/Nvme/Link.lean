import Mathlib.Data.List.Infix
import Kaguya.Nvme.Queue

/-!
# A queue and its controller

The controller fetches commands when the tail doorbell tells it to, and completes each at most once,
whenever it likes, in the next slot of the completion ring. As long as a command is submitted only
after the completion of the one before it was taken, the phase bit tells `poll` which entries are
new, over any number of laps.
-/

namespace Kaguya.Nvme

open List

structure Completion where
  number : Nat
  command : Command
  status : Fin 32768

namespace Completion

def tag (completion : Completion) (phase : Bool) : UInt32 :=
  UInt32.ofNat (completion.command.id.toNat + 65536 * phase.toNat + 131072 * completion.status)

def said (completion : Completion) : UInt16 × UInt16 :=
  (completion.command.id, UInt16.ofNat completion.status)

end Completion

structure Controller where
  fetch : Nat
  post : Nat
  phase : Bool
  outstanding : List (Nat × Command)

def readCommand (submission : Nat → UInt32) (slot : Nat) : Command :=
  ⟨fun i => submission (16 * slot + i)⟩

def writeEntry (completion : Nat → UInt32) (slot : Nat) (result : Fin 3 → UInt32) (tag : UInt32) :
    Nat → UInt32 :=
  fun word =>
    if word / 4 = slot then
      if word % 4 = 3 then tag else result (Fin.ofNat 3 (word % 4))
    else completion word

/-- A queue and its controller, with everything that was submitted, fetched, posted and returned by
`poll`. -/
structure Link where
  queue : Queue
  memory : Memory
  controller : Controller
  submitted : List Command
  fetched : List Command
  posted : List Completion
  returned : List (UInt16 × UInt16)

namespace Link

variable (s : Link) {command : Command} {id : UInt16}

def start (size : Nat) (submission : Nat → UInt32) : Link where
  queue := Queue.new size
  memory := ⟨submission, fun _ => 0, 0, 0⟩
  controller := ⟨0, 0, true, []⟩
  submitted := []
  fetched := []
  posted := []
  returned := []

def submit (command : Command) : Option Link :=
  match s.queue.submit s.memory command with
  | none => none
  | some (queue, memory) =>
    some { s with
      queue := queue
      memory := memory
      submitted := s.submitted ++ [command] }

def poll (id : UInt16) : Option (Option UInt16 × Link) :=
  match s.queue.poll s.memory id with
  | none => none
  | some (none, queue, memory) =>
    some (none, { s with
      queue := queue
      memory := memory })
  | some (some status, queue, memory) =>
    some (some status, { s with
      queue := queue
      memory := memory
      returned := s.returned ++ [(id, status)] })

def fetch : Link :=
  if s.controller.fetch = s.memory.tailDoorbell then s
  else
    let command := readCommand s.memory.submission s.controller.fetch
    { s with
      controller := { s.controller with
        fetch := if s.controller.fetch + 1 = s.queue.size then 0 else s.controller.fetch + 1
        outstanding := s.controller.outstanding ++ [(s.fetched.length, command)] }
      fetched := s.fetched ++ [command] }

def complete (k : Nat) (status : Fin 32768) (result : Fin 3 → UInt32) : Link :=
  match s.controller.outstanding[k]? with
  | none => s
  | some (number, command) =>
    let completion : Completion := ⟨number, command, status⟩
    let last := s.controller.post + 1 = s.queue.size
    { s with
      memory := { s.memory with
        completion := writeEntry s.memory.completion s.controller.post result
          (completion.tag s.controller.phase) }
      controller := { s.controller with
        post := if last then 0 else s.controller.post + 1
        phase := if last then !s.controller.phase else s.controller.phase
        outstanding := s.controller.outstanding.eraseIdx k }
      posted := s.posted ++ [completion] }

theorem fetch_frame : s.fetch.submitted = s.submitted ∧ s.fetch.returned = s.returned := by
  unfold fetch
  split <;> exact ⟨rfl, rfl⟩

theorem complete_frame (k : Nat) (status : Fin 32768) (result : Fin 3 → UInt32) :
    (s.complete k status result).submitted = s.submitted ∧ (s.complete k status result).returned
      = s.returned := by
  unfold complete
  split <;> exact ⟨rfl, rfl⟩

def marked (tag : UInt32) : Bool := (tag >>> 16) &&& 1 == 1

variable {s} (completion : Completion) (phase : Bool)

theorem tag_phase : (completion.tag phase >>> 16) &&& 1 = Queue.phaseWord phase := by
  have hid := completion.command.id.toNat_lt
  apply UInt32.toNat_inj.mp
  cases phase with
  | false =>
    simp [Completion.tag, Queue.phaseWord, Nat.shiftRight_eq_div_pow]
    omega
  | true =>
    simp [Completion.tag, Queue.phaseWord, Nat.shiftRight_eq_div_pow]
    omega

theorem tag_id : (completion.tag phase).toUInt16 = completion.command.id := by
  apply UInt16.toNat_inj.mp
  simp [Completion.tag]

theorem tag_status : (completion.tag phase >>> 17).toUInt16 = UInt16.ofNat completion.status := by
  have hid := completion.command.id.toNat_lt
  apply UInt16.toNat_inj.mp
  cases phase with
  | false =>
    simp [Completion.tag, Nat.shiftRight_eq_div_pow]
    omega
  | true =>
    simp [Completion.tag, Nat.shiftRight_eq_div_pow]
    omega

theorem phase_eq (tag : UInt32) : (tag >>> 16) &&& 1 = Queue.phaseWord (marked tag) := by
  have hword : (tag >>> 16) &&& 1 = 0 ∨ (tag >>> 16) &&& 1 = 1 := by
    have hmod := Nat.mod_two_eq_zero_or_one (tag >>> 16).toNat
    rcases hmod with hzero | hone
    · left
      apply UInt32.toNat_inj.mp
      rw [UInt32.toNat_and]
      exact (Nat.and_one_is_mod _).trans hzero
    · right
      apply UInt32.toNat_inj.mp
      rw [UInt32.toNat_and]
      exact (Nat.and_one_is_mod _).trans hone
  unfold marked
  rcases hword with hzero | hone
  · rw [hzero]
    rfl
  · rw [hone]
    rfl

theorem phaseWord_inj {a b : Bool} (h : Queue.phaseWord a = Queue.phaseWord b) : a = b := by
  cases a <;> cases b <;> first | rfl | exact absurd h (by decide)

theorem marked_tag : marked (completion.tag phase) = phase :=
  phaseWord_inj ((phase_eq _).symm.trans (tag_phase completion phase))

theorem status_eq_zero (status : Fin 32768) : (UInt16.ofNat status == 0) = true ↔ status = 0 := by
  rw [beq_iff_eq, ← UInt16.toNat_inj, Fin.ext_iff]
  simp
  omega

variable {completion submission : Nat → UInt32} {slot size : Nat} {result : Fin 3 → UInt32}

theorem writeEntry_tag {tag : UInt32} :
    writeEntry completion slot result tag (4 * slot + 3) = tag := by
  unfold writeEntry
  rw [if_pos (by omega), if_pos (by omega)]

theorem writeEntry_of_ne {i : Nat} {tag : UInt32} (h : i ≠ slot) :
    writeEntry completion slot result tag (4 * i + 3) = completion (4 * i + 3) := by
  unfold writeEntry
  rw [if_neg (by omega)]

theorem readCommand_writeCommand :
    readCommand (Queue.writeCommand submission slot command) slot = command := by
  unfold readCommand
  congr 1
  funext i
  exact Queue.writeCommand_self i

def tags (size : Nat) (posted : List Completion) : List UInt32 :=
  posted.mapIdx fun q completion => completion.tag (Laps.bit size q)

theorem length_tags {posted : List Completion} :
    (tags size posted).length = posted.length := length_mapIdx

structure Invariant (s : Link) : Prop where
  size : 2 ≤ s.queue.size
  tail : s.queue.tail = s.submitted.length % s.queue.size
  doorbell : s.memory.tailDoorbell = s.submitted.length % s.queue.size
  taken : s.queue.HasTaken s.returned.length
  fetch : s.controller.fetch = s.fetched.length % s.queue.size
  post : s.controller.post = s.posted.length % s.queue.size
  phase : s.controller.phase = Laps.bit s.queue.size s.posted.length
  holds : Laps.Holds s.queue.size marked (fun i => s.memory.completion (4 * i + 3))
    (tags s.queue.size s.posted)
  slot : ∀ command, s.submitted[s.fetched.length]? = some command →
    readCommand s.memory.submission s.controller.fetch = command
  fetched : s.fetched <+: s.submitted
  open_length : s.posted.length + s.controller.outstanding.length = s.fetched.length
  submitted_le : s.submitted.length ≤ s.returned.length + 1
  outstanding : ∀ entry ∈ s.controller.outstanding, entry.1 = s.posted.length
    ∧ s.submitted[s.posted.length]? = some entry.2
  posted : ∀ (q : Nat) (completion : Completion), s.posted[q]? = some completion →
    completion.number = q ∧ s.submitted[q]? = some completion.command
  returned : s.returned <+: s.posted.map Completion.said

theorem Invariant.counts (h : s.Invariant) : s.returned.length ≤ s.posted.length
    ∧ s.posted.length + s.controller.outstanding.length = s.fetched.length
    ∧ s.fetched.length ≤ s.submitted.length ∧ s.submitted.length ≤ s.returned.length + 1 := by
  have hreturned := h.returned.length_le
  rw [length_map] at hreturned
  exact ⟨hreturned, h.open_length, h.fetched.length_le, h.submitted_le⟩

theorem Invariant.start (hsize : 2 ≤ size) : (start size submission).Invariant := by
  have hpos : 0 < size := Nat.zero_lt_of_lt hsize
  have hbit : Laps.bit size 0 = true := Laps.bit_of_lt hpos
  constructor
  case size => exact hsize
  case tail => exact (Nat.zero_mod _).symm
  case doorbell => exact (Nat.zero_mod _).symm
  case taken =>
    refine ⟨(Nat.zero_mod _).symm, ?_⟩
    change (1 : UInt32) = Queue.phaseWord (Laps.bit size 0)
    rw [hbit]
    rfl
  case fetch => exact (Nat.zero_mod _).symm
  case post => exact (Nat.zero_mod _).symm
  case phase => exact hbit.symm
  case holds =>
    apply Laps.Holds.nil
    intro i _
    change marked 0 = false
    decide
  case slot => exact fun _ hnone => nomatch hnone
  case fetched => exact prefix_refl _
  case open_length => rfl
  case submitted_le => exact Nat.zero_le _
  case outstanding => exact fun _ hmem => nomatch hmem
  case posted => exact fun _ _ hnone => nomatch hnone
  case returned => exact prefix_refl _

variable (h : s.Invariant)
include h

theorem Invariant.submit_eq :
    s.submit command = some { s with
      queue := { s.queue with tail := (s.submitted.length + 1) % s.queue.size }
      memory := { s.memory with
        submission := Queue.writeCommand s.memory.submission (s.submitted.length % s.queue.size)
          command
        tailDoorbell := (s.submitted.length + 1) % s.queue.size }
      submitted := s.submitted ++ [command] } := by
  unfold Link.submit
  rw [Queue.submit_eq h.size h.tail]

theorem Invariant.submit (hall : s.returned.length = s.submitted.length) :
    ∃ s', s.submit command = some s' ∧ s'.Invariant ∧ s'.submitted = s.submitted ++ [command]
      ∧ s'.returned = s.returned ∧ s'.posted = s.posted := by
  obtain ⟨hreturned, hopen, hfetched, _⟩ := h.counts
  have hnone : s.controller.outstanding = [] := eq_nil_of_length_eq_zero (by omega)
  have hfetch : s.fetched.length = s.submitted.length := by omega
  refine ⟨_, h.submit_eq, ?_, rfl, rfl, rfl⟩
  constructor
  case size => exact h.size
  case tail => rw [length_append, length_singleton]
  case doorbell => rw [length_append, length_singleton]
  case taken => exact ⟨h.taken.head, h.taken.phase⟩
  case fetch => exact h.fetch
  case post => exact h.post
  case phase => exact h.phase
  case holds => exact h.holds
  case slot =>
    intro command' hcommand
    rw [hfetch, List.getElem?_concat_length] at hcommand
    rw [h.fetch, hfetch, ← Option.some.inj hcommand]
    exact readCommand_writeCommand
  case fetched => exact h.fetched.trans (prefix_append _ _)
  case open_length => exact h.open_length
  case submitted_le =>
    dsimp only
    rw [length_append, length_singleton]
    omega
  case outstanding =>
    rw [hnone]
    exact fun _ hmem => nomatch hmem
  case posted =>
    intro q completion hq
    obtain ⟨hnumber, hcommand⟩ := h.posted q completion hq
    have hlt : q < s.submitted.length := (List.getElem?_eq_some_iff.mp hcommand).1
    refine ⟨hnumber, ?_⟩
    rw [List.getElem?_append_left hlt]
    exact hcommand
  case returned => exact h.returned

theorem Invariant.fetch_iff :
    s.controller.fetch ≠ s.memory.tailDoorbell ↔ s.fetched.length < s.submitted.length := by
  obtain ⟨hreturned, hopen, hfetched, hsubmitted⟩ := h.counts
  have hsize := h.size
  rw [h.fetch, h.doorbell]
  constructor
  · intro hne
    rcases Nat.lt_or_eq_of_le hfetched with hlt | heq
    · exact hlt
    · rw [heq] at hne
      exact absurd rfl hne
  · intro hlt
    have hnext : s.submitted.length = s.fetched.length + 1 := by omega
    have hne : (s.fetched.length + 0) % s.queue.size ≠ (s.fetched.length + 1) % s.queue.size :=
      Ring.mod_ne (by omega) (by omega) (by omega)
    rwa [hnext]

theorem Invariant.afterFetch : s.fetch.Invariant := by
  unfold Link.fetch
  split
  · exact h
  rename_i hne
  obtain ⟨hreturned, hopen, hfetched, hsubmitted⟩ := h.counts
  have hlt := h.fetch_iff.mp hne
  have hnone : s.controller.outstanding = [] := eq_nil_of_length_eq_zero (by omega)
  have hcommand : s.submitted[s.fetched.length]? = some s.submitted[s.fetched.length] :=
    List.getElem?_eq_getElem hlt
  have hread := h.slot _ hcommand
  dsimp only
  rw [hread, hnone]
  constructor
  case size => exact h.size
  case tail => exact h.tail
  case doorbell => exact h.doorbell
  case taken => exact h.taken
  case fetch =>
    rw [h.fetch, Laps.next_mod (Nat.zero_lt_of_lt h.size), length_append, length_singleton]
  case post => exact h.post
  case phase => exact h.phase
  case holds => exact h.holds
  case slot =>
    intro command hnext
    have hsome := (List.getElem?_eq_some_iff.mp hnext).1
    dsimp only at hsome
    rw [length_append, length_singleton] at hsome
    omega
  case fetched => exact concat_get_prefix h.fetched hlt
  case open_length =>
    dsimp only
    rw [nil_append, length_singleton, length_append, length_singleton]
    omega
  case submitted_le => exact h.submitted_le
  case outstanding =>
    intro entry hmem
    obtain rfl := mem_singleton.mp hmem
    have hposted : s.posted.length = s.fetched.length := by omega
    refine ⟨hposted.symm, ?_⟩
    rw [hposted]
    exact hcommand
  case posted => exact h.posted
  case returned => exact h.returned

theorem Invariant.complete (k : Nat) (status : Fin 32768)
    (result : Fin 3 → UInt32) : (s.complete k status result).Invariant := by
  unfold Link.complete
  split
  · exact h
  rename_i number command hentry
  obtain ⟨hreturned, hopen, hfetched, hsubmitted⟩ := h.counts
  have hpos : 0 < s.queue.size := Nat.zero_lt_of_lt h.size
  obtain ⟨hk, hget⟩ := List.getElem?_eq_some_iff.mp hentry
  obtain ⟨hnumber, hcommand⟩ := h.outstanding _ (mem_of_getElem? hentry)
  have hnone : s.controller.outstanding.eraseIdx k = [] := by
    apply eq_nil_of_length_eq_zero
    rw [length_eraseIdx_of_lt hk]
    omega
  dsimp only at hnumber hcommand ⊢
  rw [hnone, hnumber]
  constructor
  case size => exact h.size
  case tail => exact h.tail
  case doorbell => exact h.doorbell
  case taken => exact h.taken
  case fetch => exact h.fetch
  case post =>
    rw [h.post, Laps.next_mod hpos, length_append, length_singleton]
  case phase =>
    rw [h.post, h.phase, Laps.next_bit hpos, length_append, length_singleton]
  case holds =>
    dsimp only
    rw [tags, mapIdx_concat]
    apply h.holds.write hpos
    · rw [marked_tag, length_tags]
    · rw [length_tags, h.post, h.phase, writeEntry_tag]
    · intro i _ hne
      rw [length_tags, ← h.post] at hne
      exact writeEntry_of_ne hne
  case slot => exact h.slot
  case fetched => exact h.fetched
  case open_length =>
    dsimp only
    rw [length_append, length_singleton, length_nil]
    omega
  case submitted_le => exact h.submitted_le
  case outstanding => exact fun _ hmem => nomatch hmem
  case posted =>
    intro q completion hq
    by_cases hlast : q < s.posted.length
    · rw [List.getElem?_append_left hlast] at hq
      exact h.posted q completion hq
    obtain rfl : q = s.posted.length := by
      have hlength := (List.getElem?_eq_some_iff.mp hq).1
      rw [length_append, length_singleton] at hlength
      omega
    rw [List.getElem?_concat_length] at hq
    rw [← Option.some.inj hq]
    exact ⟨rfl, hcommand⟩
  case returned =>
    rw [map_append]
    exact h.returned.trans (prefix_append _ _)

theorem Invariant.head_lt : s.queue.head < s.queue.size := by
  rw [h.taken.head]
  exact Nat.mod_lt _ (Nat.zero_lt_of_lt h.size)

theorem Invariant.phase_iff :
    (s.memory.completion (4 * s.queue.head + 3) >>> 16) &&& 1 = s.queue.phase
      ↔ s.returned.length < s.posted.length := by
  obtain ⟨hreturned, hopen, hfetched, hsubmitted⟩ := h.counts
  have hsize := h.size
  have hiff := h.holds.mark_eq_iff (Nat.zero_lt_of_lt hsize) (c := s.returned.length)
    (by rw [length_tags]; exact hreturned) (by rw [length_tags]; omega)
  rw [length_tags] at hiff
  rw [phase_eq, h.taken.phase, h.taken.head, ← hiff]
  constructor
  · exact phaseWord_inj
  · intro heq
    rw [heq]

theorem Invariant.poll_eq_some (hmore : s.returned.length < s.posted.length)
    (hown : s.submitted[s.returned.length]? = some command) :
    s.poll command.id = some (some (UInt16.ofNat s.posted[s.returned.length].status), { s with
      queue := s.queue.advance
      memory := { s.memory with headDoorbell := s.queue.advance.head }
      returned := s.returned ++ [s.posted[s.returned.length].said] }) := by
  obtain ⟨hreturned, hopen, hfetched, hsubmitted⟩ := h.counts
  have hsize := h.size
  obtain ⟨_, hcommand⟩ := h.posted _ _ (List.getElem?_eq_getElem hmore)
  have htag : s.memory.completion (4 * s.queue.head + 3)
      = s.posted[s.returned.length].tag (Laps.bit s.queue.size s.returned.length) := by
    have hnewest := h.holds.newest s.returned.length (by rwa [length_tags])
      (by rw [length_tags]; omega)
    rw [h.taken.head]
    exact hnewest.trans getElem_mapIdx
  have hsame : s.posted[s.returned.length].command = command :=
    Option.some.inj (hcommand.symm.trans hown)
  have hid : (s.memory.completion (4 * s.queue.head + 3)).toUInt16 = command.id := by
    rw [htag, tag_id, hsame]
  unfold Link.poll Completion.said
  rw [Queue.poll_some hsize h.head_lt (h.phase_iff.mpr hmore) hid, htag, tag_status, hsame]

theorem Invariant.poll_eq_none (hmore : ¬ s.returned.length < s.posted.length) :
    s.poll id = some (none, s) := by
  have hstale := h.phase_iff.not.mpr hmore
  unfold Link.poll
  rw [Queue.poll_none h.size h.head_lt hstale]

theorem Invariant.afterPoll (hmore : s.returned.length < s.posted.length) :
    Invariant { s with
      queue := s.queue.advance
      memory := { s.memory with headDoorbell := s.queue.advance.head }
      returned := s.returned ++ [s.posted[s.returned.length].said] } := by
  obtain ⟨hreturned, hopen, hfetched, hsubmitted⟩ := h.counts
  obtain ⟨htaken, hsize, htail⟩ := h.taken.advance h.size
  constructor
  case size => exact hsize ▸ h.size
  case tail => rw [hsize, htail, h.tail]
  case doorbell => rw [hsize, h.doorbell]
  case taken => rwa [length_append, length_singleton]
  case fetch => rw [hsize, h.fetch]
  case post => rw [hsize, h.post]
  case phase => rw [hsize, h.phase]
  case holds => exact hsize ▸ h.holds
  case slot => exact h.slot
  case fetched => exact h.fetched
  case open_length => exact h.open_length
  case submitted_le =>
    rw [length_append, length_singleton]
    exact Nat.le_succ_of_le hsubmitted
  case outstanding => exact h.outstanding
  case posted => exact h.posted
  case returned =>
    have hnext := concat_get_prefix h.returned (by rwa [length_map])
    simpa using hnext

theorem Invariant.exists_status_iff {number : Nat} :
    (∃ completion ∈ s.posted, completion.number = number ∧ completion.status = 0)
      ↔ ∃ completion, s.posted[number]? = some completion ∧ completion.status = 0 := by
  constructor
  · rintro ⟨completion, hmem, rfl, hstatus⟩
    obtain ⟨q, hq⟩ := mem_iff_getElem?.mp hmem
    rw [(h.posted q completion hq).1]
    exact ⟨completion, hq, hstatus⟩
  · rintro ⟨completion, hget, hstatus⟩
    exact ⟨completion, mem_of_getElem? hget, (h.posted _ _ hget).1, hstatus⟩

end Link

end Kaguya.Nvme
