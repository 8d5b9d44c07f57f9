import Kaguya.Lib.Handles
import Kaguya.Udp.Sockets

/-!
# Ports and their sockets

What holds of the counters, the handles and the table of ports at every step: counters are right,
every living socket with a port stands in the table, and an entry of a dead socket is there only
until the thread that dropped the last handle gets to it, or until somebody binds a port.
-/

namespace Kaguya.Udp

open Function Net List
open Tcp (Endpoint)

variable {Thread : Type}

namespace Job

def holds : Job → Option Nat
  | .connecting owner _ | .sending owner _ _ | .delivering owner _ | .finishing owner => some owner
  | .idle | .destroying _ | .releasing _ => none

def buries : Job → Option Nat
  | .destroying owner | .releasing owner => some owner
  | .idle | .connecting .. | .sending .. | .delivering .. | .finishing _ => none

theorem buries_of_isIdle {job : Job} (h : job.isIdle = true) : job.buries = none := by
  cases job <;> first | rfl | cases h

theorem buries_of_holds {job : Job} {owner : Nat} (h : job.holds = some owner) :
    job.buries = none := by
  cases job <;> first | rfl | cases h

end Job

structure Owned (references : Nat → Nat) (handles : List (Thread × Nat)) (jobs : Thread → Job) :
    Prop where
  counted : Handles.Counted references handles
  holding : ∀ t a, (jobs t).holds = some a → (t, a) ∈ handles
  buried : ∀ t a, (jobs t).buries = some a → references a = 0
  single : ∀ t t' a, (jobs t).buries = some a → (jobs t').buries = some a → t = t'

section Owned
variable {references : Nat → Nat} {handles : List (Thread × Nat)} {jobs : Thread → Job}
  {t : Thread} {a : Nat} {job : Job} (h : Owned references handles jobs)
include h

theorem Owned.add (hlive : references a ≠ 0) :
    Owned (update references a (references a + 1)) ((t, a) :: handles) jobs where
  counted := h.counted.add t a
  holding t' b hholds := mem_cons_of_mem _ (h.holding t' b hholds)
  buried := by grind [Owned, update_apply]
  single := h.single

theorem Owned.new (hdead : references a = 0) (hunburied : ∀ t, (jobs t).buries ≠ some a) :
    Owned (update references a 1) ((t, a) :: handles) jobs where
  counted := by
    have hadd := h.counted.add t a
    rwa [hdead] at hadd
  holding t' b hholds := mem_cons_of_mem _ (h.holding t' b hholds)
  buried := by grind [Owned, update_apply]
  single := h.single

theorem Owned.live (hholds : (jobs t).holds = some a) : references a ≠ 0 :=
  Nat.pos_iff_ne_zero.1 (h.counted.pos (h.holding t a hholds))

variable [DecidableEq Thread]

theorem Owned.goTo (hholds : ∀ a, job.holds = some a → (t, a) ∈ handles)
    (hburies : ∀ a, job.buries = some a → (jobs t).buries = some a) :
    Owned references handles (update jobs t job) where
  counted := h.counted
  holding := by grind [Owned, update_apply]
  buried := by grind [Owned, update_apply]
  single := by grind [Owned, update_apply]

theorem Owned.drop (hmem : (t, a) ∈ handles) :
    Owned (update references a (references a - 1)) (handles.erase (t, a))
      (update jobs t (if references a = 1 then .destroying a else .idle)) := by
  -- a socket that somebody buries has no handles, so it is another one
  have hjob : (if references a = 1 then Job.destroying a else .idle).holds = none := by
    split <;> rfl
  have hburies : ∀ b, (if references a = 1 then Job.destroying a else .idle).buries = some b → b = a
      ∧ references a = 1 := by
    grind [Job.buries]
  constructor
  case counted => exact h.counted.drop hmem
  case holding =>
    intro t' b hholds
    have hother : t' ≠ t := by grind
    rw [update_of_ne hother] at hholds
    exact Handles.mem_erase_of_other hother (h.holding t' b hholds)
  case buried => grind [Owned, update_apply]
  case single => grind [Owned, update_apply]

theorem Owned.give (hmem : (t, a) ∈ handles) (hjob : (jobs t).holds = none) (receiver : Thread) :
    Owned references ((receiver, a) :: handles.erase (t, a)) jobs where
  counted := h.counted.give hmem receiver
  holding t' b hholds := by
    have hother : t' ≠ t := by grind
    exact mem_cons_of_mem _ (Handles.mem_erase_of_other hother (h.holding t' b hholds))
  buried := h.buried
  single := h.single

end Owned

def Claimed (references : Nat → Nat) (jobs : Thread → Job) (a : Nat) : Prop :=
  references a ≠ 0 ∨ ∃ t, (jobs t).buries = some a

structure Registered (references weak : Nat → Nat) (value : Nat → Socket) (ports : List Port)
    (jobs : Thread → Job) : Prop where
  owners : (ports.map Port.owner).Nodup
  names : (ports.map Port.port).Nodup
  sound : ∀ e ∈ ports, e.port ≠ 0 ∧ e.port ≠ Dns.PORT ∧ (value e.owner).port = e.port
  standing : ∀ e ∈ ports, references e.owner ≠ 0 ∨ ∃ t, jobs t = .destroying e.owner
  live : ∀ a, references a ≠ 0 → (value a).port ≠ 0 → ⟨(value a).port, a⟩ ∈ ports
  weak_of_claimed : ∀ a, Claimed references jobs a → weak a = (ports.map Port.owner).count a + 1
  weak_of_free : ∀ a, ¬ Claimed references jobs a → weak a = 0
  delivering : ∀ t a packet, jobs t = .delivering a packet → ⟨packet.port, a⟩ ∈ ports

section Registered
variable {references references' weak : Nat → Nat} {value value' : Nat → Socket}
  {ports : List Port} {handles : List (Thread × Nat)} {jobs jobs' : Thread → Job} {t : Thread}
  {a : Nat} {job : Job}

theorem used_eq_false {port : UInt16} :
    used ports port = false ↔ port ≠ Dns.PORT ∧ port ∉ ports.map Port.port := by
  simp [used]

theorem foldl_dropWeak (weak : Nat → Nat) (dead : List Nat) (b : Nat) :
    dead.foldl World.dropWeak weak b = weak b - dead.count b := by
  induction dead generalizing weak with
  | nil => simp
  | cons a dead ih =>
    rw [foldl_cons, ih, count_cons, World.dropWeak]
    grind [update_apply]

theorem count_filter_owner (P : Nat → Bool) (b : Nat) :
    ((ports.filter fun e => P e.owner).map Port.owner).count b = if P b
      then (ports.map Port.owner).count b else 0 := by
  have hmap : (ports.filter fun e => P e.owner).map Port.owner = (ports.map Port.owner).filter
      P := by
    rw [filter_map]
    rfl
  rw [hmap]
  cases hb : P b with
  | true => rw [count_filter hb, if_pos rfl]
  | false =>
    rw [if_neg Bool.false_ne_true]
    apply count_eq_zero_of_not_mem
    intro hmem
    exact Bool.false_ne_true (hb.symm.trans (mem_filter.1 hmem).2)

variable (h : Registered references weak value ports jobs)
include h

/-- What the table depends on: the ports that sockets have, whether they are alive, and whose
destructors are running. -/
theorem Registered.congr (hvalue : ∀ a, (value' a).port = (value a).port)
    (hclaimed : ∀ a, Claimed references' jobs' a ↔ Claimed references jobs a)
    (hlive : ∀ a, references' a ≠ 0 → references a ≠ 0)
    (hstanding : ∀ e ∈ ports, references' e.owner ≠ 0 ∨ ∃ t, jobs' t = .destroying e.owner)
    (hdelivering : ∀ t a packet, jobs' t = .delivering a packet → ⟨packet.port, a⟩ ∈ ports) :
    Registered references' weak value' ports jobs' where
  owners := h.owners
  names := h.names
  sound e he := hvalue e.owner ▸ h.sound e he
  standing := hstanding
  live a ha hport := by
    rw [hvalue] at hport ⊢
    exact h.live a (hlive a ha) hport
  weak_of_claimed a ha := h.weak_of_claimed a ((hclaimed a).1 ha)
  weak_of_free a ha := h.weak_of_free a (mt (hclaimed a).2 ha)
  delivering := hdelivering

theorem Registered.recount (hreferences : ∀ a, references' a = 0 ↔ references a = 0) :
    Registered references' weak value ports jobs := by
  have hclaimed : ∀ a, Claimed references' jobs a ↔ Claimed references jobs a := by
    intro a
    rw [Claimed, Claimed, ne_eq, ne_eq, hreferences]
  apply h.congr (fun _ => rfl) hclaimed (fun a => mt (hreferences a).2) _ h.delivering
  exact fun e he => (h.standing e he).imp_left (mt (hreferences _).1)

theorem Registered.setValue {socket : Socket} (hport : socket.port = (value a).port) :
    Registered references weak (update value a socket) ports jobs := by
  refine h.congr (fun b => ?_) (fun _ => Iff.rfl) (fun _ => id) h.standing h.delivering
  grind [update_apply]

theorem Registered.unregistered (hunbound : (value a).port = 0) : a ∉ ports.map Port.owner := by
  intro hmem
  obtain ⟨e, he, rfl⟩ := mem_map.1 hmem
  obtain ⟨hne, -, heq⟩ := h.sound e he
  exact hne (heq.symm.trans hunbound)

theorem Registered.free (hweak : weak a = 0) :
    ¬ Claimed references jobs a ∧ a ∉ ports.map Port.owner := by
  have hfree : ¬ Claimed references jobs a := by
    intro hclaimed
    have hcount := h.weak_of_claimed a hclaimed
    omega
  refine ⟨hfree, fun hmem => hfree ?_⟩
  obtain ⟨e, he, rfl⟩ := mem_map.1 hmem
  rcases h.standing e he with hlive | ⟨t, ht⟩
  · exact .inl hlive
  · exact .inr ⟨t, by rw [ht]; rfl⟩

theorem Registered.register {port : UInt16} (hlive : references a ≠ 0)
    (hunbound : (value a).port = 0) (hport : port ≠ 0) (hfree : used ports port = false) :
    Registered references (update weak a (weak a + 1))
      (update value a { value a with port := port }) (ports ++ [⟨port, a⟩]) jobs := by
  obtain ⟨hdns, hname⟩ := used_eq_false.1 hfree
  have hnew := h.unregistered hunbound
  have hclaimed : Claimed references jobs a := .inl hlive
  constructor
  case owners => grind [Registered]
  case names => grind [Registered]
  case sound => grind [Registered, update_apply]
  case standing => grind [Registered]
  case live => grind [Registered, update_apply]
  case weak_of_claimed =>
    intro b hb
    have hcount := h.weak_of_claimed b hb
    rw [map_append, count_append]
    by_cases hba : b = a
    · subst hba
      simpa using hcount
    · simpa [hba, Ne.symm hba] using hcount
  case weak_of_free => grind [Registered, update_apply]
  case delivering =>
    exact fun t b packet hjob => mem_append_left _ (h.delivering t b packet hjob)

theorem Registered.prune (howned : Owned references handles jobs) :
    Registered references
      (((ports.filter (references ·.owner = 0)).map Port.owner).foldl World.dropWeak weak) value
      (ports.filter (references ·.owner ≠ 0)) jobs where
  owners := h.owners.sublist (filter_sublist.map _)
  names := h.names.sublist (filter_sublist.map _)
  sound e he := h.sound e (mem_of_mem_filter he)
  standing e he := h.standing e (mem_of_mem_filter he)
  live a hlive hport := mem_filter.2 ⟨h.live a hlive hport, by simpa using hlive⟩
  weak_of_claimed a ha := by
    rw [foldl_dropWeak, count_filter_owner (fun a => decide (references a = 0)),
      count_filter_owner (fun a => decide (references a ≠ 0)), h.weak_of_claimed a ha]
    by_cases hdead : references a = 0 <;> simp [hdead]
  weak_of_free a ha := by rw [foldl_dropWeak, h.weak_of_free a ha, Nat.zero_sub]
  delivering t a packet hjob := by
    have hlive := howned.live (t := t) (a := a) (by rw [hjob]; rfl)
    exact mem_filter.2 ⟨h.delivering t a packet hjob, by simpa using hlive⟩

theorem Registered.erase (howned : Owned references handles jobs) (hjob : jobs t = .destroying a)
    {e : Port} (he : e ∈ ports) (howner : e.owner = a) :
    Registered references (World.dropWeak weak e.owner) value (ports.eraseP (·.owner == a)) jobs
      ∧ a ∉ (ports.eraseP (·.owner == a)).map Port.owner := by
  have hburies : (jobs t).buries = some a := by
    rw [hjob]
    rfl
  have hdead := howned.buried t a hburies
  have hsub := @eraseP_sublist _ (fun e : Port => e.owner == a) ports
  have hmap : (ports.eraseP (·.owner == a)).map Port.owner = (ports.map Port.owner).erase a := by
    rw [erase_eq_eraseP', eraseP_map]
    rfl
  have hkept : ∀ e' ∈ ports, e'.owner ≠ a → e' ∈ ports.eraseP (·.owner == a) :=
    fun e' he' hne => (mem_eraseP_of_neg (by simpa using hne)).2 he'
  refine ⟨?_, hmap ▸ h.owners.not_mem_erase⟩
  constructor
  case owners => exact h.owners.sublist (hsub.map _)
  case names => exact h.names.sublist (hsub.map _)
  case sound => exact fun e he => h.sound e (hsub.subset he)
  case standing => exact fun e he => h.standing e (hsub.subset he)
  case live =>
    intro b hlive hport
    refine hkept _ (h.live b hlive hport) ?_
    rintro rfl
    exact hlive hdead
  case weak_of_claimed =>
    intro b hb
    have hcount := h.weak_of_claimed b hb
    rw [hmap, count_erase, World.dropWeak]
    grind [update_apply]
  case weak_of_free =>
    intro b hb
    have hba : b ≠ a := fun heq => hb (heq ▸ .inr ⟨t, hburies⟩)
    rw [World.dropWeak, howner, update_of_ne hba]
    exact h.weak_of_free b hb
  case delivering =>
    intro t' b packet hdelivering
    have hlive := howned.live (t := t') (a := b) (by rw [hdelivering]; rfl)
    exact hkept _ (h.delivering t' b packet hdelivering) (by grind)

theorem Registered.new (hweak : weak a = 0) :
    Registered (update references a 1) (update weak a 1) (update value a .new) ports jobs := by
  obtain ⟨hfree, hgone⟩ := h.free hweak
  have hclaimed : ∀ b, Claimed (update references a 1) jobs b ↔ b = a
      ∨ Claimed references jobs b := by
    intro b
    by_cases hb : b = a <;> simp [Claimed, hb]
  have hport : Socket.new.port = 0 := rfl
  refine { h with
    sound := ?_, standing := ?_, live := ?_, weak_of_claimed := ?_, weak_of_free := ?_ }
  all_goals grind [Registered, update_apply]

variable [DecidableEq Thread]
omit h in
theorem exists_update {P : Job → Prop} (hbefore : ¬ P (jobs t)) (hafter : ¬ P job) :
    (∃ t', P (update jobs t job t')) ↔ ∃ t', P (jobs t') := by
  constructor
  · rintro ⟨t', ht'⟩
    exact ⟨t', by grind [update_apply]⟩
  · rintro ⟨t', ht'⟩
    exact ⟨t', by grind [update_apply]⟩

omit h in
theorem claimed_update (hbefore : (jobs t).buries ≠ some a) (hafter : job.buries ≠ some a) :
    Claimed references (update jobs t job) a ↔ Claimed references jobs a :=
  or_congr_right (exists_update (P := fun job => job.buries = some a) hbefore hafter)

omit h in
theorem standing_update {owner : Nat} (hbefore : (jobs t).buries ≠ some owner)
    (h : references owner ≠ 0 ∨ ∃ t, jobs t = .destroying owner) :
    references owner ≠ 0 ∨ ∃ t', update jobs t job t' = .destroying owner := by
  refine h.imp_right ?_
  rintro ⟨t', ht'⟩
  have hother : t' ≠ t := by
    rintro rfl
    exact hbefore (by rw [ht']; rfl)
  exact ⟨t', by rwa [update_of_ne hother]⟩

theorem delivering_update
    (hdelivering : ∀ a packet, job = .delivering a packet → ⟨packet.port, a⟩ ∈ ports) (t' : Thread)
    (b : Nat) (packet : Packet) (hjob : update jobs t job t' = .delivering b packet) :
    ⟨packet.port, b⟩ ∈ ports := by
  rw [update_apply] at hjob
  split at hjob
  · exact hdelivering b packet hjob
  · exact h.delivering t' b packet hjob

theorem Registered.goTo (hbefore : (jobs t).buries = none) (hafter : job.buries = none)
    (hdelivering : ∀ a packet, job = .delivering a packet → ⟨packet.port, a⟩ ∈ ports) :
    Registered references weak value ports (update jobs t job) := by
  refine h.congr (fun _ => rfl) (fun a => ?_) (fun _ => id) (fun e he => ?_)
    (delivering_update h hdelivering)
  · exact claimed_update (by simp [hbefore]) (by simp [hafter])
  · exact standing_update (by simp [hbefore]) (h.standing e he)

theorem Registered.bury (hlast : references a = 1) (hjob : (jobs t).buries = none) :
    Registered (update references a 0) weak value ports (update jobs t (.destroying a)) := by
  have hself : update jobs t (.destroying a) t = .destroying a := update_self ..
  refine h.congr (fun _ => rfl) (fun b => ?_) (fun b => ?_) (fun e he => ?_)
    (delivering_update h fun _ _ hdelivering => nomatch hdelivering)
  · by_cases hb : b = a
    · subst hb
      exact iff_of_true (.inr ⟨t, by rw [hself]; rfl⟩) (.inl (by omega))
    · have hother : Claimed references (update jobs t (.destroying a)) b
          ↔ Claimed references jobs b :=
        claimed_update (by simp [hjob]) (by simp [Job.buries, Ne.symm hb])
      rw [← hother, Claimed, Claimed, update_of_ne hb]
  · grind [update_apply]
  by_cases hb : e.owner = a
  · exact .inr ⟨t, hb ▸ hself⟩
  · rw [update_of_ne hb]
    exact standing_update (by simp [hjob]) (h.standing e he)

theorem Registered.released (hjob : jobs t = .destroying a) (hgone : a ∉ ports.map Port.owner) :
    Registered references weak value ports (update jobs t (.releasing a)) := by
  refine h.congr (fun _ => rfl) (fun b => or_congr_right ?_) (fun _ => id) (fun e he => ?_)
    (delivering_update h fun _ _ hdelivering => nomatch hdelivering)
  · refine exists_congr fun t' => ?_
    rw [update_apply]
    split
    case isTrue ht =>
      rw [ht, hjob]
      rfl
    case isFalse => rfl
  · refine standing_update ?_ (h.standing e he)
    rintro hburies
    rw [hjob] at hburies
    exact hgone (Option.some.inj hburies ▸ mem_map_of_mem he)

theorem Registered.release (howned : Owned references handles jobs) (hjob : jobs t = .releasing a) :
    Registered references (World.dropWeak weak a) value ports (update jobs t .idle) := by
  have hburies : (jobs t).buries = some a := by
    rw [hjob]
    rfl
  have hidle : Job.idle.buries = none := rfl
  have hdead := howned.buried t a hburies
  have hgone : a ∉ ports.map Port.owner := by
    intro hmem
    obtain ⟨e, he, rfl⟩ := mem_map.1 hmem
    rcases h.standing e he with hlive | ⟨t', ht'⟩
    · exact hlive hdead
    · have ht := howned.single t' t e.owner (by rw [ht']; rfl) hburies
      rw [ht, hjob] at ht'
      cases ht'
  have hweak := h.weak_of_claimed a (.inr ⟨t, hburies⟩)
  rw [count_eq_zero_of_not_mem hgone] at hweak
  have hother : ∀ b, b ≠ a → (Claimed references (update jobs t .idle) b
      ↔ Claimed references jobs b) :=
    fun b hb => claimed_update (by simp [hburies, Ne.symm hb]) (by simp [hidle])
  have hfreed : ¬ Claimed references (update jobs t .idle) a := by
    rintro (hlive | ⟨t', ht'⟩)
    · exact hlive hdead
    rw [update_apply] at ht'
    split at ht'
    case isTrue => cases ht'
    case isFalse ht => exact ht (howned.single t' t a ht' hburies)
  refine { h with
    standing := fun e he => ?_
    weak_of_claimed := fun b hb => ?_
    weak_of_free := fun b hb => ?_
    delivering := delivering_update h fun _ _ hdelivering => nomatch hdelivering }
  · refine standing_update ?_ (h.standing e he)
    exact fun howner => hgone (Option.some.inj (hburies.symm.trans howner) ▸ mem_map_of_mem he)
  · have hb' : b ≠ a := fun hba => hfreed (hba ▸ hb)
    rw [World.dropWeak, update_of_ne hb']
    exact h.weak_of_claimed b ((hother b hb').1 hb)
  by_cases hb' : b = a
  · rw [World.dropWeak, hb', update_self, hweak]
  · rw [World.dropWeak, update_of_ne hb']
    exact h.weak_of_free b (mt (hother b hb').2 hb)

end Registered

namespace World

structure Consistent (w : World Thread) : Prop where
  owned : Owned w.references w.handles w.jobs
  registered : Registered w.references w.weak w.value w.ports w.jobs
  cursor : Ports.Ephemeral w.next

variable {w : World Thread} {t : Thread} {a : Nat} {job : Job}
theorem consistent_initial : (initial : World Thread).Consistent where
  owned :=
    { counted := fun _ => rfl
      holding := fun _ _ h => nomatch h
      buried := fun _ _ h => nomatch h
      single := fun _ _ _ h => nomatch h }
  registered :=
    { owners := nodup_nil
      names := nodup_nil
      sound := fun _ h => nomatch h
      standing := fun _ h => nomatch h
      live := fun _ h => absurd rfl h
      weak_of_claimed := fun _ h => by
        rcases h with h | ⟨_, h⟩
        · exact absurd rfl h
        · cases h
      weak_of_free := fun _ _ => rfl
      delivering := fun _ _ _ h => nomatch h }
  cursor := show Ports.Ephemeral 50000 by decide

structure Bound (w w' : World Thread) : Prop where
  handles : w'.handles = w.handles
  jobs : w'.jobs = w.jobs
  arrivals : w'.arrivals = w.arrivals

theorem bound_bindPort (w : World Thread) (a : Nat) (requested : UInt16) (implicit : Bool) :
    Bound w (w.bindPort a requested implicit).2 := by
  unfold World.bindPort World.register
  dsimp only
  split
  · exact ⟨rfl, rfl, rfl⟩
  · split
    · exact ⟨rfl, rfl, rfl⟩
    · split <;> exact ⟨rfl, rfl, rfl⟩

section
variable (h : w.Consistent)
include h

theorem Consistent.addHandle (hlive : w.references a ≠ 0) (t : Thread) :
    (w.addHandle t a).Consistent where
  owned := h.owned.add hlive
  registered := by
    refine h.registered.recount fun b => ?_
    change update w.references a (w.references a + 1) b = 0 ↔ _
    grind [update_apply]
  cursor := h.cursor

theorem Consistent.prune : w.prune.Consistent where
  owned := h.owned
  registered := h.registered.prune h.owned
  cursor := h.cursor

theorem Consistent.selectPort (requested : UInt16) :
    ((w.selectPort requested).1 ≠ 0 → used w.ports (w.selectPort requested).1 = false)
      ∧ Ports.Ephemeral (w.selectPort requested).2 := by
  unfold World.selectPort
  by_cases hrequested : requested ≠ 0
  · rw [if_pos hrequested]
    refine ⟨fun hselected => ?_, h.cursor⟩
    cases hused : used w.ports requested with
    | true => rw [hused] at hselected; exact absurd rfl hselected
    | false => rwa [if_neg Bool.false_ne_true]
  · rw [if_neg hrequested]
    exact ⟨fun hselected => (Ports.select_free h.cursor hselected).2, Ports.select_cursor h.cursor⟩

theorem Consistent.register {port : UInt16} (hlive : w.references a ≠ 0)
    (hunbound : (w.value a).port = 0) (hport : port ≠ 0) (hfree : used w.ports port = false) :
    (w.register a port).Consistent := by
  unfold World.register
  split
  · exact ⟨h.owned, h.registered, h.cursor⟩
  · exact ⟨h.owned, h.registered.register hlive hunbound hport hfree, h.cursor⟩

theorem Consistent.bindPort (hlive : w.references a ≠ 0) (requested : UInt16)
    (implicit : Bool) : (w.bindPort a requested implicit).2.Consistent := by
  have hpruned := h.prune
  unfold World.bindPort
  dsimp only
  split
  case isTrue => exact hpruned
  case isFalse hunbound =>
    obtain ⟨hfree, hcursor⟩ := hpruned.selectPort requested
    split
    case isTrue => exact ⟨hpruned.owned, hpruned.registered, hcursor⟩
    case isFalse hselected =>
      have hnext : ({ w.prune with next := (w.prune.selectPort requested).2 } :
          World Thread).Consistent := ⟨hpruned.owned, hpruned.registered, hcursor⟩
      exact hnext.register hlive (not_not.1 hunbound) hselected (hfree hselected)

theorem Consistent.transmit (hlive : w.references a ≠ 0) (peer : Endpoint) (data : List UInt8) :
    (w.transmit a peer data).Consistent ∧ Bound w (w.transmit a peer data) := by
  have hbind := h.bindPort hlive 0 true
  have hbound := bound_bindPort w a 0 true
  unfold World.transmit
  split
  case h_1 w' heq =>
    rw [heq] at hbind hbound
    exact ⟨hbind, hbound⟩
  case h_2 port w' heq =>
    rw [heq] at hbind hbound
    split <;> exact ⟨⟨hbind.owned, hbind.registered, hbind.cursor⟩,
      ⟨hbound.handles, hbound.jobs, hbound.arrivals⟩⟩

theorem Consistent.deliver (owner : Nat) (packet : Packet) :
    (w.deliver owner packet).Consistent ∧ (w.deliver owner packet).handles = w.handles
      ∧ (w.deliver owner packet).jobs = w.jobs := by
  unfold World.deliver
  dsimp only
  split
  · exact ⟨h, rfl, rfl⟩
  · exact ⟨⟨h.owned, h.registered.setValue rfl, h.cursor⟩, rfl, rfl⟩

theorem Consistent.bindPort_free (hlive : w.references a ≠ 0)
    (hunbound : (w.value a).port = 0) {port : UInt16} (hport : port ≠ 0) (hdns : port ≠ Dns.PORT)
    (hdead : ∀ b, ⟨port, b⟩ ∈ w.ports → w.references b = 0) :
    (w.bindPort a port false).1 = .ok port ∧ ⟨port, a⟩ ∈ (w.bindPort a port false).2.ports := by
  have hpruned := h.prune
  have hfree : used w.prune.ports port = false := by
    refine used_eq_false.2 ⟨hdns, fun hmem => ?_⟩
    obtain ⟨e, he, rfl⟩ := mem_map.1 hmem
    obtain ⟨he, hstanding⟩ := mem_filter.1 he
    exact absurd (hdead e.owner he) (by simpa using hstanding)
  have hselect : w.prune.selectPort port = (port, w.prune.next) := by
    simp [World.selectPort, hport, hfree]
  have hweak : w.prune.weak a = 1 := by
    rw [hpruned.registered.weak_of_claimed a (.inl hlive),
      count_eq_zero_of_not_mem (hpruned.registered.unregistered hunbound)]
  have hunbound' : (w.prune.value a).port = 0 := hunbound
  unfold World.bindPort
  rw [if_neg (not_not.2 hunbound'), hselect]
  dsimp only
  rw [if_neg hport]
  refine ⟨rfl, ?_⟩
  unfold World.register
  rw [if_neg (by dsimp only; rw [hweak]; decide)]
  exact mem_append_right _ (mem_singleton_self _)

variable [DecidableEq Thread]

theorem Consistent.goTo (hbefore : (w.jobs t).buries = none)
    (hafter : job.buries = none) (hholds : ∀ a, job.holds = some a → (t, a) ∈ w.handles)
    (hdelivering : ∀ a packet, job = .delivering a packet → ⟨packet.port, a⟩ ∈ w.ports) :
    (w.goTo t job).Consistent where
  owned := h.owned.goTo hholds (by simp [hafter])
  registered := h.registered.goTo hbefore hafter hdelivering
  cursor := h.cursor

theorem Consistent.dropHandle (hmem : (t, a) ∈ w.handles)
    (hjob : (w.jobs t).buries = none) : (w.dropHandle t a).Consistent where
  owned := h.owned.drop hmem
  registered := by
    unfold World.dropHandle World.goTo
    dsimp only
    by_cases hlast : w.references a = 1
    · rw [if_pos hlast, hlast]
      exact h.registered.bury hlast hjob
    · rw [if_neg hlast]
      refine (h.registered.recount ?_).goTo hjob rfl fun _ _ hdelivering => nomatch hdelivering
      grind [update_apply]
  cursor := h.cursor

theorem Consistent.call (hready : w.Ready t a) (call : Call Thread) :
    (w.call t a call).Consistent := by
  obtain ⟨hidle, hmem⟩ := hready
  have hlive : w.references a ≠ 0 := Nat.pos_iff_ne_zero.1 (h.owned.counted.pos hmem)
  have hburies := Job.buries_of_isIdle hidle
  cases call with
  | clone =>
    simp only [World.call]
    split
    · exact ⟨h.owned, h.registered, h.cursor⟩
    · exact h.addHandle hlive t
  | give receiver =>
    refine ⟨h.owned.give hmem ?_ receiver, h.registered, h.cursor⟩
    cases hjob : w.jobs t <;> first | rfl | (rw [hjob] at hidle; cases hidle)
  | bind port => exact h.bindPort hlive port false
  | connect =>
    have hbind := h.bindPort hlive 0 true
    have hbound := bound_bindPort w a 0 true
    simp only [World.call]
    split
    · exact h
    split
    case h_1 port w' heq =>
      rw [heq] at hbind hbound
      refine hbind.goTo (by rw [hbound.jobs]; exact hburies) rfl ?_ fun _ _ hdelivering =>
        nomatch hdelivering
      intro b hb
      rw [hbound.handles, ← Option.some.inj hb]
      exact hmem
    case h_2 error w' heq =>
      rw [heq] at hbind
      exact hbind
  | send =>
    simp only [World.call]
    split
    · exact h
    split
    · exact h
    split
    · exact h
    refine h.goTo hburies rfl ?_ fun _ _ hdelivering => nomatch hdelivering
    intro b hb
    rw [← Option.some.inj hb]
    exact hmem
  | receive =>
    simp only [World.call, World.receive]
    split
    · exact h
    · split
      · exact h
      · exact ⟨h.owned, h.registered.setValue rfl, h.cursor⟩
  | drop => exact h.dropHandle hmem hburies

theorem Consistent.find (hidle : (w.jobs t).isIdle = true) (packet : Packet) :
    (w.find t packet).Consistent := by
  unfold World.find
  split
  case h_1 => exact h
  case h_2 entry hfind =>
    split
    case isTrue => exact h
    case isFalse hlive =>
      split
      case isTrue => exact ⟨h.owned, h.registered, h.cursor⟩
      case isFalse =>
        refine (h.addHandle hlive t).goTo (Job.buries_of_isIdle hidle) rfl ?_ ?_
        · intro b hb
          rw [← Option.some.inj hb]
          exact mem_cons_self
        rintro b packet' hdelivering
        obtain ⟨rfl, rfl⟩ := Job.delivering.inj hdelivering
        have hport : entry.port = packet.port := by simpa using List.find?_some hfind
        rw [← hport]
        exact mem_of_find?_eq_some hfind

theorem Consistent.incoming (hidle : (w.jobs t).isIdle = true) (src dst : UInt32)
    (segment : List UInt8) : (w.incoming t src dst segment).Consistent := by
  unfold World.incoming
  split
  · exact h.find hidle _
  · exact h
  · exact ⟨h.owned, h.registered, h.cursor⟩

theorem Consistent.advance (t : Thread) : (w.advance t).Consistent := by
  have hholding : ∀ a, (w.jobs t).holds = some a → (t, a) ∈ w.handles := h.owned.holding t
  unfold World.advance
  split
  case h_1 => exact h
  case h_2 owner peer hjob =>
    have hset : (w.setPeer owner peer).Consistent := ⟨h.owned, h.registered.setValue rfl, h.cursor⟩
    refine hset.goTo ?_ rfl (fun _ hb => nomatch hb) fun _ _ hdelivering => nomatch hdelivering
    change (w.jobs t).buries = none
    rw [hjob]
    rfl
  case h_3 owner peer data hjob =>
    have hholds : (w.jobs t).holds = some owner := by
      rw [hjob]
      rfl
    obtain ⟨htransmit, hbound⟩ := h.transmit (h.owned.live hholds) peer data
    refine htransmit.goTo ?_ rfl (fun _ hb => nomatch hb) fun _ _ hdelivering => nomatch hdelivering
    rw [hbound.jobs]
    exact Job.buries_of_holds hholds
  case h_4 owner packet hjob =>
    have hholds : (w.jobs t).holds = some owner := by
      rw [hjob]
      rfl
    obtain ⟨hdeliver, hhandles, hjobs⟩ := h.deliver owner packet
    refine hdeliver.goTo ?_ rfl ?_ fun _ _ hdelivering => nomatch hdelivering
    · rw [hjobs]
      exact Job.buries_of_holds hholds
    · intro b hb
      rw [hhandles, ← Option.some.inj hb]
      exact hholding owner hholds
  case h_5 owner hjob =>
    have hholds : (w.jobs t).holds = some owner := by
      rw [hjob]
      rfl
    exact h.dropHandle (hholding owner hholds) (Job.buries_of_holds hholds)
  case h_6 owner hjob =>
    have howned : Owned w.references w.handles (update w.jobs t (.releasing owner)) :=
      h.owned.goTo (fun _ hb => nomatch hb) fun b hb => by rw [hjob]; exact hb
    unfold World.unregister
    split
    case h_1 hnone =>
      refine ⟨howned, h.registered.released hjob ?_, h.cursor⟩
      intro hmem
      obtain ⟨e, he, heq⟩ := mem_map.1 hmem
      exact absurd (List.find?_eq_none.1 hnone e he) (by simp [heq])
    case h_2 entry hfind =>
      have howner : entry.owner = owner := by simpa using List.find?_some hfind
      obtain ⟨herased, hgone⟩ := h.registered.erase h.owned hjob (mem_of_find?_eq_some hfind) howner
      exact ⟨howned, herased.released hjob hgone, h.cursor⟩
  case h_7 owner hjob =>
    have howned : Owned w.references w.handles (update w.jobs t .idle) :=
      h.owned.goTo (fun _ hb => nomatch hb) fun _ hb => nomatch hb
    exact ⟨howned, h.registered.release h.owned hjob, h.cursor⟩

theorem Consistent.step (action : Thread × Op Thread) : (w.step action).Consistent := by
  obtain ⟨t, op⟩ := action
  unfold World.step
  split
  · exact h
  cases op with
  | new address =>
    dsimp only
    split
    case isTrue hnew =>
      obtain ⟨hfree, -⟩ := h.registered.free hnew.2
      have hdead : w.references address = 0 := by
        by_contra hlive
        exact hfree (.inl hlive)
      refine ⟨h.owned.new hdead ?_, h.registered.new hnew.2, h.cursor⟩
      exact fun t' hburied => hfree (.inr ⟨t', hburied⟩)
    case isFalse => exact h
  | call _ call =>
    dsimp only
    split
    case isTrue hready => exact h.call hready call
    case isFalse => exact h
  | incoming src dst segment =>
    dsimp only
    split
    case isTrue hidle => exact h.incoming hidle src dst segment
    case isFalse => exact h
  | advance => exact h.advance t

end

variable [DecidableEq Thread]

theorem Consistent.run (actions : List (Thread × Op Thread)) :
    (runAll World.step initial actions).Consistent :=
  runAll_invariant consistent_initial fun _ action _ h => h.step action

/-- **No free port is overlooked.** A socket that asks for any port is refused only if each of the
ports from 50000 on belongs to a socket that is in use. -/
theorem bind_refused_iff (actions : List (Thread × Op Thread)) (a : Nat) (implicit : Bool) :
    let w := runAll World.step initial actions
    (w.value a).port = 0 → ((w.bindPort a 0 implicit).1 = .error (-10)
      ↔ ∀ port, Ports.Ephemeral port → ∃ b, ⟨port, b⟩ ∈ w.ports ∧ w.references b ≠ 0) := by
  intro w hunbound
  have hrefused : (w.bindPort a 0 implicit).1 = .error (-10) ↔ (w.prune.selectPort 0).1 = 0 := by
    have hunbound' : (w.prune.value a).port = 0 := hunbound
    unfold bindPort
    dsimp only
    rw [if_neg (not_not.2 hunbound')]
    split <;> simp [*]
  have hselect := @Ports.select_eq_zero_iff (used w.prune.ports) _
    (Consistent.run actions).prune.cursor
  refine (hrefused.trans hselect).trans (forall₂_congr fun port hport => ?_)
  have hdns : port ≠ Dns.PORT := by
    rintro rfl
    exact absurd hport (by decide)
  simp only [used, beq_eq_false_iff_ne.2 hdns, Bool.false_or, any_eq_true, beq_iff_eq, prune,
    mem_filter, decide_eq_true_eq]
  constructor
  · rintro ⟨e, he, rfl⟩
    exact ⟨e.owner, he⟩
  · rintro ⟨b, hb⟩
    exact ⟨⟨port, b⟩, hb, rfl⟩

theorem bind_not_refused_dead :
    let w : World Nat :=
      runAll World.step initial [(0, .new 1), (0, .call 1 (.bind 50000)), (0, .new 2),
      (0, .call 2 (.bind 50001)), (0, .new 3), (0, .call 1 .drop)]
    (w.ports = [⟨50000, 1⟩, ⟨50001, 2⟩] ∧ w.references 1 = 0 ∧ w.references 2 = 1
      ∧ w.references 3 = 1)
      ∧ (w.bindPort 3 0 false).1 ≠ .error (-10) := by
  intro w
  have hworld : w.ports = [⟨50000, 1⟩, ⟨50001, 2⟩] ∧ w.references 1 = 0 ∧ w.references 2 = 1
      ∧ w.references 3 = 1 := by
    decide
  refine ⟨hworld, fun hrefused => ?_⟩
  obtain ⟨b, hb, hlive⟩ := (bind_refused_iff _ 3 false rfl).1 hrefused 50000 (by decide)
  rw [hworld.1] at hb
  obtain rfl : b = 1 := by simpa using hb
  exact hlive hworld.2.1

end World

end Kaguya.Udp
