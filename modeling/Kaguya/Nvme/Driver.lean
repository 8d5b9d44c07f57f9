import Kaguya.Lib.Runs
import Kaguya.Nvme.Link

/-!
# Commands and completions

`execute` and `transfer` of `nvme.jh`, with the controller behind the queue. A run is a list of
calls, polls and events of the controller in any order. Each command gets its own completion. A call
that has polled `LIMIT` times gives up, and no command is submitted after it.

A call holds `LOCK` until it returns, so there is at most one at a time.
-/

namespace Kaguya.Nvme

open List

def LIMIT : Nat := 20000000

structure Request where
  command : Command
  id : UInt16
  own : command.id = id

inductive Kind where
  | execute
  | transfer
  deriving DecidableEq

inductive Value where
  | executed (ok : Bool)
  | transferred (result : Int)
  deriving DecidableEq

def Kind.value (ok : Bool) : Kind → Value
  | .execute => .executed ok
  | .transfer => .transferred (if ok then 0 else -1)

def Value.succeeded : Value → Bool
  | .executed ok => ok
  | .transferred result => result == 0

theorem succeeded_value (kind : Kind) (ok : Bool) : (kind.value ok).succeeded = ok := by
  cases kind <;> cases ok <;> rfl

structure Waiting where
  kind : Kind
  number : Nat
  id : UInt16
  polls : Nat

structure Outcome where
  number : Option Nat
  value : Value
  posted : List Completion

def Outcome.Right (outcome : Outcome) : Prop :=
  outcome.value.succeeded = true ↔ ∃ number, outcome.number = some number
    ∧ ∃ completion ∈ outcome.posted, completion.number = number ∧ completion.status = 0

structure System where
  link : Link
  ready : Bool
  failed : Bool
  blocks : Nat
  list : Nat
  pages : PageList
  waiting : Option Waiting
  panicked : Bool
  outcomes : List Outcome

inductive Event where
  | fetch
  | complete (k : Nat) (status : Fin 32768) (result : Fin 3 → UInt32)

inductive Input where
  | execute (request : Request)
  | transfer (writing : Bool) (lba count buffer : Nat) (dmaRange : Bool)
  | poll
  | event (event : Event)

namespace System

variable (s : System) {call : Waiting} {kind : Kind} {request : Request}

def start (size blocks list : Nat) (submission : Nat → UInt32) (pages : PageList) : System where
  link := Link.start size submission
  ready := true
  failed := false
  blocks := blocks
  list := list
  pages := pages
  waiting := none
  panicked := false
  outcomes := []

def submit (kind : Kind) (request : Request) : System :=
  match s.link.submit request.command with
  | none => { s with panicked := true }
  | some link =>
    { s with
      link := link
      waiting := some ⟨kind, s.link.submitted.length, request.id, 0⟩ }

def transferCommand (writing : Bool) : Command := Command.new (if writing then 1 else 2) 100 1

def transferRequest (writing : Bool) (lba count buffer list : Nat) (pages : PageList) :
    Request where
  command :=
    let command := (setPrps (transferCommand writing) buffer count list pages).2.1
    command.setRange (UInt32.ofNat lba) (UInt32.ofNat (lba / 2 ^ 32)) (UInt32.ofNat (count - 1))
  id := 100
  own := by
    rw [Command.id_setRange, id_setPrps]
    exact Command.id_new _ _ _

def accepts (lba count : Nat) (dmaRange : Bool) : Bool :=
  s.ready && !s.failed && 0 < count && count ≤ 65536 && lba < s.blocks && count ≤ s.blocks - lba
    && dmaRange

def reject : System :=
  { s with outcomes := s.outcomes ++ [⟨none, .transferred (-1), s.link.posted⟩] }

def transfer (writing : Bool) (lba count buffer : Nat) (dmaRange : Bool) : System :=
  if s.accepts lba count dmaRange then
    let (ok, _, pages) := setPrps (transferCommand writing) buffer count s.list s.pages
    if ok then
      { s with pages := pages }.submit .transfer
        (transferRequest writing lba count buffer s.list s.pages)
    else s.reject
  else s.reject

def finish (call : Waiting) (ok : Bool) : System :=
  { s with
    waiting := none
    outcomes := s.outcomes ++ [⟨some call.number, call.kind.value ok, s.link.posted⟩] }

def poll (call : Waiting) : System :=
  match s.link.poll call.id with
  | none => { s with panicked := true }
  | some (some status, link) => { s with link := link }.finish call (status == 0)
  | some (none, link) =>
    if call.polls + 1 = LIMIT then { s with link := link, failed := true }.finish call false
    else { s with link := link, waiting := some { call with polls := call.polls + 1 } }

/-- One step. Calls are made one after the other, and none of `execute` once a call has given up. -/
def step : Input → System
  | .execute request => if s.waiting.isSome || s.failed then s else s.submit .execute request
  | .transfer writing lba count buffer dmaRange =>
    if s.waiting.isSome then s else s.transfer writing lba count buffer dmaRange
  | .poll =>
    match s.waiting with
    | none => s
    | some call => s.poll call
  | .event .fetch => { s with link := s.link.fetch }
  | .event (.complete k status result) => { s with link := s.link.complete k status result }

abbrev run (inputs : List Input) : System := runAll step s inputs

structure Sound : Prop where
  running : s.panicked = false
  /-- `poll` has returned the first of the completions that were posted, each once. -/
  inOrder : s.link.returned <+: s.link.posted.map Completion.said
  prompt : ∀ call, s.waiting = some call → s.link.returned.length < s.link.posted.length →
    (s.poll call).link.returned.length = s.link.returned.length + 1
  limited : ∀ call, s.waiting = some call → call.polls < LIMIT ∧ ((s.poll call).waiting = none
      ∨ (s.poll call).waiting = some { call with polls := call.polls + 1 })
  fetched : s.link.fetched <+: s.link.submitted
  /-- The command that is to be fetched lies in the slot where the controller looks. -/
  slot : ∀ command, s.link.submitted[s.link.fetched.length]? = some command →
    s.link.controller.fetch ≠ s.link.memory.tailDoorbell
      ∧ readCommand s.link.memory.submission s.link.controller.fetch = command
  own : ∀ completion ∈ s.link.posted, s.link.submitted[completion.number]? = some completion.command
  /-- What a call returns is right for what was posted before its last poll. -/
  outcomes : ∀ outcome ∈ s.outcomes, outcome.Right
  silent : s.failed = true → ∀ input, (s.step input).link.submitted = s.link.submitted

structure Busy (call : Waiting) : Prop where
  last : s.link.returned.length + 1 = s.link.submitted.length
  number : call.number = s.link.returned.length
  polls : call.polls < LIMIT
  working : s.failed = false
  command : ∃ command, s.link.submitted[s.link.returned.length]? = some command
    ∧ call.id = command.id

structure Invariant : Prop where
  running : s.panicked = false
  link : s.link.Invariant
  idle : s.waiting = none → s.failed = true ∨ s.link.returned.length = s.link.submitted.length
  busy : ∀ call, s.waiting = some call → s.Busy call
  outcomes : ∀ outcome ∈ s.outcomes, outcome.Right

variable {s}

theorem Invariant.start {size blocks list : Nat} {submission : Nat → UInt32} {pages : PageList}
    (hsize : 2 ≤ size) : (start size blocks list submission pages).Invariant where
  running := rfl
  link := Link.Invariant.start hsize
  idle := fun _ => .inr rfl
  busy := fun _ hnone => nomatch hnone
  outcomes := fun _ hmem => nomatch hmem

theorem Invariant.submit (h : s.Invariant) (hidle : s.waiting = none)
    (hworking : s.failed = false) : (s.submit kind request).Invariant := by
  have hall : s.link.returned.length = s.link.submitted.length := by
    rcases h.idle hidle with hfailed | hall
    · rw [hworking] at hfailed
      cases hfailed
    · exact hall
  obtain ⟨link, heq, hlink, hsubmitted, hreturned, _⟩ :=
    @Link.Invariant.submit s.link request.command h.link hall
  unfold System.submit
  rw [heq]
  refine ⟨h.running, hlink, fun hcontra => (nomatch hcontra), ?_, h.outcomes⟩
  intro call hcall
  cases hcall
  refine ⟨?_, ?_, (by decide : 0 < LIMIT), hworking, request.command, ?_, request.own.symm⟩
  · rw [hsubmitted, hreturned, hall, length_append, length_singleton]
  · rw [hreturned, hall]
  · rw [hsubmitted, hreturned, hall, List.getElem?_concat_length]

theorem outcomes_append {outcomes : List Outcome} {outcome : Outcome}
    (h : ∀ outcome ∈ outcomes, outcome.Right) (hright : outcome.Right) :
    ∀ outcome' ∈ outcomes ++ [outcome], outcome'.Right := by
  intro outcome' hmem
  rcases mem_append.mp hmem with hold | hnew
  · exact h outcome' hold
  · rw [mem_singleton.mp hnew]
    exact hright

section
variable (h : s.Invariant)
include h

theorem Invariant.reject : s.reject.Invariant := by
  have hright : Outcome.Right ⟨none, .transferred (-1), s.link.posted⟩ := by
    constructor
    · intro hcontra
      cases hcontra
    · rintro ⟨_, hcontra, _⟩
      cases hcontra
  exact ⟨h.running, h.link, h.idle, fun call hcall =>
    have hbusy := h.busy call hcall
    ⟨hbusy.last, hbusy.number, hbusy.polls, hbusy.working, hbusy.command⟩,
    outcomes_append h.outcomes hright⟩

theorem Invariant.transfer (hidle : s.waiting = none) {writing : Bool} {lba count buffer : Nat}
    {dmaRange : Bool} : (s.transfer writing lba count buffer dmaRange).Invariant := by
  unfold System.transfer
  split
  · rename_i haccepts
    have hworking : s.failed = false := by
      unfold accepts at haccepts
      simp only [Bool.and_eq_true, Bool.not_eq_true'] at haccepts
      exact haccepts.1.1.1.1.1.2
    dsimp only
    split
    · have hpages : Invariant { s with
          pages := (setPrps (transferCommand writing) buffer count s.list s.pages).2.2 } :=
        ⟨h.running, h.link, h.idle,
          fun call hcall => (nomatch (hidle.symm.trans hcall : none = some call)), h.outcomes⟩
      exact hpages.submit hidle hworking
    · exact h.reject
  · exact h.reject

theorem Invariant.right (hcall : s.waiting = some call) {ok : Bool}
    (hok : ok = true ↔ ∃ completion, s.link.posted[s.link.returned.length]? = some completion
      ∧ completion.status = 0) :
    Outcome.Right ⟨some call.number, call.kind.value ok, s.link.posted⟩ := by
  unfold Outcome.Right
  rw [succeeded_value, hok, ← h.link.exists_status_iff, (h.busy call hcall).number]
  constructor
  · intro hposted
    exact ⟨_, rfl, hposted⟩
  · rintro ⟨number, hnumber, hposted⟩
    rw [Option.some.inj hnumber]
    exact hposted

/-- **What a poll does**: it returns the completion that was posted, and without one the call goes
on or gives up. -/
theorem Invariant.poll_cases (hcall : s.waiting = some call) :
    (∃ link ok, s.poll call = { s with link := link }.finish call ok
        ∧ s.link.returned.length < s.link.posted.length ∧ link.Invariant
        ∧ link.returned.length = s.link.returned.length + 1 ∧ link.submitted = s.link.submitted
        ∧ link.posted = s.link.posted
        ∧ (ok = true ↔ ∃ completion, s.link.posted[s.link.returned.length]? = some completion
          ∧ completion.status = 0))
      ∨ (¬ s.link.returned.length < s.link.posted.length
        ∧ s.poll call = if call.polls + 1 = LIMIT then { s with failed := true }.finish call false
          else { s with waiting := some { call with polls := call.polls + 1 } }) := by
  by_cases hmore : s.link.returned.length < s.link.posted.length
  · left
    obtain ⟨command, hown, hid⟩ := (h.busy call hcall).command
    have hpoll := h.link.poll_eq_some hmore hown
    rw [← hid] at hpoll
    refine ⟨_, UInt16.ofNat s.link.posted[s.link.returned.length].status == 0, ?_, hmore,
      h.link.afterPoll hmore, ?_, rfl, rfl, ?_⟩
    · unfold System.poll
      rw [hpoll]
    · rw [length_append, length_singleton]
    · rw [Link.status_eq_zero, List.getElem?_eq_getElem hmore]
      simp
  · right
    refine ⟨hmore, ?_⟩
    unfold System.poll
    rw [h.link.poll_eq_none hmore]

theorem Invariant.poll (hcall : s.waiting = some call) : (s.poll call).Invariant := by
  have hbusy := h.busy call hcall
  rcases h.poll_cases hcall with
    ⟨link, ok, heq, hmore, hlink, hreturned, hsubmitted, hposted, hok⟩ | ⟨hmore, heq⟩
  · rw [heq]
    refine ⟨h.running, hlink, fun _ => .inr ?_, fun _ hcontra => (nomatch hcontra), ?_⟩
    · change link.returned.length = link.submitted.length
      rw [hreturned, hsubmitted]
      exact hbusy.last
    apply outcomes_append h.outcomes
    rw [hposted]
    exact h.right hcall hok
  · rw [heq]
    split
    · refine ⟨h.running, h.link, fun _ => .inl rfl, fun _ hcontra => (nomatch hcontra), ?_⟩
      apply outcomes_append h.outcomes
      apply h.right hcall
      rw [List.getElem?_eq_none (Nat.le_of_not_lt hmore)]
      simp
    · rename_i hlimit
      have hpolls := hbusy.polls
      refine ⟨h.running, h.link, fun hcontra => (nomatch hcontra), ?_, h.outcomes⟩
      intro call' hcall'
      cases hcall'
      exact ⟨hbusy.last, hbusy.number, by dsimp only; omega, hbusy.working, hbusy.command⟩

theorem Invariant.event {link : Link} (hlink : link.Invariant)
    (hsubmitted : link.submitted = s.link.submitted) (hreturned : link.returned = s.link.returned) :
    Invariant { s with link := link } := by
  refine ⟨h.running, hlink, ?_, ?_, h.outcomes⟩
  · rw [hsubmitted, hreturned]
    exact h.idle
  intro call hcall
  obtain ⟨hlast, hnumber, hpolls, hworking, hcommand⟩ := h.busy call hcall
  rw [← hsubmitted, ← hreturned] at hcommand hlast
  rw [← hreturned] at hnumber
  exact ⟨hlast, hnumber, hpolls, hworking, hcommand⟩

theorem Invariant.step (input : Input) : (s.step input).Invariant := by
  cases input with
  | execute request =>
    change Invariant (if s.waiting.isSome || s.failed then s else s.submit .execute request)
    split
    · exact h
    rename_i hfree
    simp only [Bool.or_eq_true, not_or, Bool.not_eq_true, Option.isSome_eq_false_iff,
      Option.isNone_iff_eq_none] at hfree
    exact h.submit hfree.1 hfree.2
  | transfer writing lba count buffer dmaRange =>
    change Invariant (if s.waiting.isSome then s else s.transfer writing lba count buffer dmaRange)
    split
    · exact h
    · rename_i hfree
      exact h.transfer (Option.not_isSome_iff_eq_none.mp hfree)
  | poll =>
    unfold System.step
    dsimp only
    split
    · exact h
    · rename_i call hcall
      exact h.poll hcall
  | event event =>
    cases event with
    | fetch =>
      exact h.event h.link.afterFetch (Link.fetch_frame s.link).1 (Link.fetch_frame s.link).2
    | complete k status result =>
      exact h.event (h.link.complete k status result) (Link.complete_frame s.link k status result).1
        (Link.complete_frame s.link k status result).2

end

theorem submitted_step_of_failed (hfailed : s.failed = true) (h : s.Invariant) (input : Input) :
    (s.step input).link.submitted = s.link.submitted := by
  cases input with
  | execute =>
    change (if s.waiting.isSome || s.failed then s else _).link.submitted = _
    rw [hfailed, Bool.or_true, if_pos rfl]
  | transfer writing lba count buffer dmaRange =>
    have haccepts : s.accepts lba count dmaRange = false := by simp [accepts, hfailed]
    change (if _ then s else s.transfer writing lba count buffer dmaRange).link.submitted = _
    split
    · rfl
    · unfold System.transfer
      rw [haccepts]
      rfl
  | poll =>
    unfold System.step
    dsimp only
    split
    · rfl
    rename_i call hcall
    have hworking := (h.busy call hcall).working
    rw [hfailed] at hworking
    cases hworking
  | event event =>
    cases event with
    | fetch => exact (Link.fetch_frame s.link).1
    | complete k status result => exact (Link.complete_frame s.link k status result).1

theorem Invariant.sound (h : s.Invariant) : s.Sound where
  running := h.running
  inOrder := h.link.returned
  prompt := by
    intro call hcall hmore
    rcases h.poll_cases hcall with ⟨link, ok, heq, _, _, hreturned, _⟩ | ⟨hnone, _⟩
    · rw [heq]
      exact hreturned
    · exact absurd hmore hnone
  limited := by
    intro call hcall
    refine ⟨(h.busy call hcall).polls, ?_⟩
    rcases h.poll_cases hcall with ⟨link, ok, heq, _⟩ | ⟨_, heq⟩
    · rw [heq]
      exact .inl rfl
    rw [heq]
    split
    · exact .inl rfl
    · exact .inr rfl
  fetched := h.link.fetched
  slot := by
    intro command hcommand
    have hlt := (List.getElem?_eq_some_iff.mp hcommand).1
    exact ⟨h.link.fetch_iff.mpr hlt, h.link.slot command hcommand⟩
  own := by
    intro completion hmem
    obtain ⟨q, hq⟩ := mem_iff_getElem?.mp hmem
    obtain ⟨hnumber, hcommand⟩ := h.link.posted q completion hq
    rw [hnumber]
    exact hcommand
  outcomes := h.outcomes
  silent := fun hfailed input => submitted_step_of_failed hfailed h input

/-- **Each command gets its own completion**, in every run of calls, polls and events. -/
theorem own_completion {size blocks list : Nat} {submission : Nat → UInt32} {pages : PageList}
    (hsize : 2 ≤ size) (inputs : List Input) :
    ((start size blocks list submission pages).run inputs).Sound := by
  have hinvariant : ((start size blocks list submission pages).run inputs).Invariant :=
    runAll_invariant (Invariant.start hsize) fun _ input _ h => h.step input
  exact hinvariant.sound

def oneTransfer : List Input :=
  [.transfer false 0 1 4096 true, .event .fetch, .event (.complete 0 0 fun _ => 0), .poll]

theorem own_completion_oneTransfer :
    ((start 2 100 4096 (fun _ => 0) (fun _ => 0)).run oneTransfer).Sound
      ∧ ((start 2 100 4096 (fun _ => 0) (fun _ => 0)).run oneTransfer).outcomes.map Outcome.value
        = [.transferred 0] :=
  ⟨own_completion (by decide) oneTransfer, by decide +kernel⟩

end System

end Kaguya.Nvme
