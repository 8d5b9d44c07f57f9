import Kaguya.Udp.Registration

/-!
# What sockets deliver

The queues of all sockets over whole runs, against the record of what went in and what came out.
-/

namespace Kaguya.Udp

open Function Trapping Net List
open Tcp (Endpoint)

variable {Thread : Type}

theorem get16_take {data : List UInt8} {n offset : Nat} (h : offset + 1 < n) :
    get16 (data.take n) offset = get16 data offset := by
  have hindex : ∀ i < n, index (data.take n) i = index data i := by
    intro i hi
    rw [index, index, List.getElem?_take_of_lt hi]
  unfold get16
  rw [hindex offset (by omega)]
  congr 1
  funext high
  unfold plus
  split
  · rw [ok_bind, ok_bind, hindex _ h]
  · rfl

/-- What `incoming` takes for a datagram has the ports of its segment, and the bytes behind the
header up to the length that the header gives. -/
theorem accept_datagram {src dst : UInt32} {segment : List UInt8} {port : UInt16}
    {message : Datagram} (h : accept src dst segment = .ok (.datagram port message)) :
    message.source.ip = src ∧ get16 segment 0 = .ok message.source.port ∧ get16 segment 2 = .ok port
      ∧ ∃ length, get16 segment 4 = .ok length ∧ message.data = (segment.take length.toNat).drop
        8 := by
  unfold accept at h
  split at h
  case isTrue => cases h
  case isFalse hshort =>
    obtain ⟨length, hlength, h⟩ := bind_eq_ok.1 h
    dsimp only at h
    split at h
    case isTrue => cases h
    case isFalse hfits =>
      rw [slice_eq (Nat.zero_le _) (by omega), ok_bind, drop_zero] at h
      obtain ⟨sound, -, h⟩ := bind_eq_ok.1 h
      split at h
      case isTrue => cases h
      case isFalse =>
        rw [get16_take (by omega), get16_take (by omega)] at h
        obtain ⟨port', hport, h⟩ := bind_eq_ok.1 h
        split at h
        case isTrue => cases h
        case isFalse =>
          obtain ⟨source, hsource, h⟩ := bind_eq_ok.1 h
          rw [mapM_index (by rw [length_take]; omega), ok_bind] at h
          cases h
          refine ⟨rfl, hsource, hport, length, hlength, ?_⟩
          rw [take_of_length_le]
          rw [length_drop, length_take]
          omega

/-- **The queues.** A queue holds datagrams that arrived at its socket, in the order in which they
came, and what was returned came before them. -/
structure Queued (value : Nat → Socket) (arrivals : List Arrival) (returned : List Returned) :
    Prop where
  peers : ∀ a peer, (value a).peer = some peer → ∀ d ∈ (value a).queue, d.2.source = peer
  room : ∀ a, (value a).queue.length ≤ 16
  sorted : ∀ a, ((value a).queue.map Prod.fst).Pairwise (· < ·)
  known : ∀ a, ∀ d ∈ (value a).queue, ∃ arrival, arrivals[d.1]? = some arrival
    ∧ arrival.owner = a ∧ arrival.packet.message = d.2
  ordered : returned.Pairwise fun r r' => r.owner = r'.owner → r.serial < r'.serial
  ahead : ∀ r ∈ returned, ∀ d ∈ (value r.owner).queue, r.serial < d.1
  exact : ∀ r ∈ returned, ∃ arrival, arrivals[r.serial]? = some arrival
    ∧ arrival.owner = r.owner ∧ r.output = arrival.packet.message.data.take r.capacity
    ∧ r.source = arrival.packet.message.source

namespace Queued

variable {value value' : Nat → Socket} {arrivals : List Arrival} {returned : List Returned}
  {a : Nat} {socket : Socket}

theorem shrink (h : Queued value arrivals returned)
    (hqueue : ∀ a, (value' a).queue.Sublist (value a).queue)
    (hpeers : ∀ a peer, (value' a).peer = some peer → ∀ d ∈ (value' a).queue, d.2.source = peer) :
    Queued value' arrivals returned where
  peers := hpeers
  room a := (hqueue a).length_le.trans (h.room a)
  sorted a := (h.sorted a).sublist ((hqueue a).map _)
  known a d hd := h.known a d ((hqueue a).subset hd)
  ordered := h.ordered
  ahead r hr d hd := h.ahead r hr d ((hqueue r.owner).subset hd)
  exact := h.exact

theorem set (h : Queued value arrivals returned) (hqueue : socket.queue.Sublist (value a).queue)
    (hpeers : ∀ peer, socket.peer = some peer → ∀ d ∈ socket.queue, d.2.source = peer) :
    Queued (update value a socket) arrivals returned := by
  apply h.shrink
  · intro b
    by_cases hb : b = a
    · subst hb
      rwa [update_self]
    · rw [update_of_ne hb]
  intro b peer
  by_cases hb : b = a
  · subst hb
    rw [update_self]
    exact hpeers peer
  · rw [update_of_ne hb]
    exact h.peers b peer

theorem receive (h : Queued value arrivals returned) {serial capacity : Nat} {message : Datagram}
    {rest : List (Nat × Datagram)} (hqueue : (value a).queue = (serial, message) :: rest) :
    Queued (update value a { value a with queue := rest }) arrivals
      (returned ++ [⟨a, serial, capacity, message.data.take (min capacity message.data.length),
        message.source⟩]) := by
  have hmem : (serial, message) ∈ (value a).queue := by
    rw [hqueue]
    exact mem_cons_self
  have hrest : rest.Sublist (value a).queue := by
    rw [hqueue]
    exact sublist_cons_self _ _
  have hset : Queued (update value a { value a with queue := rest }) arrivals returned :=
    h.set hrest fun peer hpeer d hd => h.peers a peer hpeer d (hrest.subset hd)
  obtain ⟨arrival, harrival, howner, hmessage⟩ := h.known a _ hmem
  refine ⟨hset.peers, hset.room, hset.sorted, hset.known, ?_, ?_, ?_⟩
  · refine pairwise_append.2 ⟨h.ordered, pairwise_singleton _ _, ?_⟩
    intro r hr r' hr' heq
    rw [mem_singleton.1 hr'] at heq ⊢
    have howner' : r.owner = a := heq
    exact h.ahead r hr (serial, message) (howner' ▸ hmem)
  · intro r hr d hd
    rcases mem_append.1 hr with hr | hr
    · exact hset.ahead r hr d hd
    rw [mem_singleton.1 hr] at hd ⊢
    rw [update_self] at hd
    have hsorted := h.sorted a
    rw [hqueue, map_cons] at hsorted
    exact (pairwise_cons.1 hsorted).1 d.1 (mem_map_of_mem hd)
  · intro r hr
    rcases mem_append.1 hr with hr | hr
    · exact h.exact r hr
    · rw [mem_singleton.1 hr]
      refine ⟨arrival, harrival, howner, ?_, by rw [hmessage]⟩
      rw [hmessage, ← take_eq_take_min]

variable {i : Nat} {arrival : Arrival}

theorem lt_of_arrival (h : arrivals[i]? = some arrival) :
    i < arrivals.length := (List.getElem?_eq_some_iff.1 h).1

theorem arrival_append (h : arrivals[i]? = some arrival) (more : List Arrival) :
    (arrivals ++ more)[i]? = some arrival := by
  rwa [List.getElem?_append_left (lt_of_arrival h)]

theorem deliver (h : Queued value arrivals returned) {packet : Packet}
    (hrefuses : World.refuses (value a) packet.message.source = false)
    (hroom : (value a).queue.length < 16) : Queued (update value a { value a with
        queue := (value a).queue ++ [(arrivals.length, packet.message)] })
      (arrivals ++ [⟨a, packet⟩]) returned := by
  have hknown : ∀ b, ∀ d ∈ (value b).queue, ∃ arrival, (arrivals ++ [⟨a, packet⟩])[d.1]?
      = some arrival ∧ arrival.owner = b ∧ arrival.packet.message = d.2 := by
    intro b d hd
    obtain ⟨arrival, harrival, howner⟩ := h.known b d hd
    exact ⟨arrival, arrival_append harrival _, howner⟩
  constructor
  case peers =>
    intro b peer hpeer d hd
    by_cases hb : b = a
    · subst hb
      rw [update_self] at hpeer hd
      rcases mem_append.1 hd with hd | hd
      · exact h.peers b peer hpeer d hd
      have hsource : peer = packet.message.source := by
        change (value b).peer = some peer at hpeer
        simpa [World.refuses, hpeer] using hrefuses
      rw [mem_singleton.1 hd, hsource]
    · rw [update_of_ne hb] at hpeer hd
      exact h.peers b peer hpeer d hd
  case room =>
    intro b
    by_cases hb : b = a
    · subst hb
      rw [update_self, length_append, length_singleton]
      exact hroom
    · rw [update_of_ne hb]
      exact h.room b
  case sorted =>
    intro b
    by_cases hb : b = a
    · subst hb
      rw [update_self, map_append]
      refine pairwise_append.2 ⟨h.sorted b, pairwise_singleton _ _, ?_⟩
      intro serial hserial serial' hserial'
      obtain ⟨d, hd, rfl⟩ := mem_map.1 hserial
      obtain ⟨arrival, harrival, -⟩ := h.known b d hd
      rw [mem_singleton.1 hserial']
      exact lt_of_arrival harrival
    · rw [update_of_ne hb]
      exact h.sorted b
  case known =>
    intro b d hd
    by_cases hb : b = a
    · subst hb
      rw [update_self] at hd
      rcases mem_append.1 hd with hd | hd
      · exact hknown b d hd
      · rw [mem_singleton.1 hd]
        exact ⟨⟨b, packet⟩, by simp, rfl, rfl⟩
    · rw [update_of_ne hb] at hd
      exact hknown b d hd
  case ordered => exact h.ordered
  case ahead =>
    intro r hr d hd
    by_cases hb : r.owner = a
    · rw [hb, update_self] at hd
      rcases mem_append.1 hd with hd | hd
      · exact h.ahead r hr d (hb ▸ hd)
      · obtain ⟨arrival, harrival, -⟩ := h.exact r hr
        rw [mem_singleton.1 hd]
        exact lt_of_arrival harrival
    · rw [update_of_ne hb] at hd
      exact h.ahead r hr d hd
  case exact =>
    intro r hr
    obtain ⟨arrival, harrival, hrest⟩ := h.exact r hr
    exact ⟨arrival, arrival_append harrival _, hrest⟩

end Queued

namespace World

variable {w : World Thread} {t : Thread} {a : Nat}
variable (h : Queued w.value w.arrivals w.returned)

section

include h

theorem queued_bindPort (requested : UInt16) (implicit : Bool) :
    Queued (w.bindPort a requested implicit).2.value
      (w.bindPort a requested implicit).2.arrivals
        (w.bindPort a requested implicit).2.returned := by
  unfold bindPort register
  dsimp only
  split
  · exact h
  split
  · exact h
  · split
    · exact h
    · exact h.set (Sublist.refl _) (h.peers a)

theorem queued_transmit (peer : Endpoint) (data : List UInt8) :
    Queued (w.transmit a peer data).value
      (w.transmit a peer data).arrivals (w.transmit a peer data).returned := by
  have hbind := queued_bindPort (a := a) h 0 true
  unfold transmit
  split
  case h_1 w' heq =>
    rw [heq] at hbind
    exact hbind
  case h_2 port w' heq =>
    rw [heq] at hbind
    split <;> exact hbind

theorem queued_receive (capacity : Nat) :
    Queued (w.receive a capacity).value (w.receive a capacity).arrivals
      (w.receive a capacity).returned := by
  unfold receive
  split
  · exact h
  · split
    case h_1 => exact h
    case h_2 serial packet rest hqueue => exact h.receive hqueue

theorem queued_deliver (packet : Packet) :
    Queued (w.deliver a packet).value (w.deliver a packet).arrivals
      (w.deliver a packet).returned := by
  unfold deliver
  dsimp only
  split
  case isTrue => exact h
  case isFalse hdelivers =>
    simp only [Bool.or_eq_true, decide_eq_true_eq, not_or, Bool.not_eq_true] at hdelivers
    exact h.deliver hdelivers.1 (Nat.lt_of_not_le hdelivers.2)

variable [DecidableEq Thread]

theorem queued_call (call : Call Thread) :
    Queued (w.call t a call).value (w.call t a call).arrivals (w.call t a call).returned := by
  cases call with
  | clone =>
    simp only [World.call]
    split <;> exact h
  | give => exact h
  | bind port => exact queued_bindPort h port false
  | connect =>
    have hbind := queued_bindPort (a := a) h 0 true
    simp only [World.call]
    split
    · exact h
    split
    case h_1 port w' heq =>
      rw [heq] at hbind
      exact hbind
    case h_2 error w' heq =>
      rw [heq] at hbind
      exact hbind
  | send =>
    simp only [World.call]
    split
    · exact h
    · split
      · exact h
      · split <;> exact h
  | receive capacity => exact queued_receive h capacity
  | drop => exact h

theorem queued_advance (t : Thread) :
    Queued (w.advance t).value (w.advance t).arrivals (w.advance t).returned := by
  unfold advance
  split
  case h_1 => exact h
  case h_2 owner peer _ =>
    refine h.set filter_sublist fun peer' hpeer d hd => ?_
    have hsource := (mem_filter.1 hd).2
    rw [← Option.some.inj hpeer]
    simpa using hsource
  case h_3 owner peer data _ => exact queued_transmit h peer data
  case h_4 owner packet _ => exact queued_deliver h packet
  case h_5 => exact h
  case h_6 owner _ =>
    unfold unregister
    split <;> exact h
  case h_7 => exact h

theorem queued_step (action : Thread × Op Thread) :
    Queued (w.step action).value (w.step action).arrivals (w.step action).returned := by
  obtain ⟨t, op⟩ := action
  unfold World.step
  split
  · exact h
  cases op with
  | new =>
    dsimp only
    split
    · exact h.set (nil_sublist _) fun _ _ _ hd => nomatch hd
    · exact h
  | call _ call =>
    dsimp only
    split
    · exact queued_call h call
    · exact h
  | incoming =>
    dsimp only
    split
    · unfold incoming find
      split
      · split
        · exact h
        · split
          · exact h
          · split <;> exact h
      · exact h
      · exact h
    · exact h
  | advance => exact queued_advance h t

end

variable [DecidableEq Thread]

theorem queued_run (actions : List (Thread × Op Thread)) :
    Queued (runAll World.step initial actions).value (runAll World.step initial actions).arrivals
      (runAll World.step initial actions).returned := by
  refine runAll_invariant (P := fun w : World Thread => Queued w.value w.arrivals w.returned) ?_
    fun _ action _ h => queued_step h action
  exact {
      peers := fun _ _ h => nomatch h
      room := fun _ => Nat.zero_le _
      sorted := fun _ => Pairwise.nil
      known := fun _ _ h => nomatch h
      ordered := Pairwise.nil
      ahead := fun _ h => nomatch h
      exact := fun _ h => nomatch h }

theorem arrivals_call (w : World Thread) (t : Thread) (a : Nat) (call : Call Thread) :
    (w.call t a call).arrivals = w.arrivals := by
  cases call with
  | clone =>
    simp only [World.call]
    split <;> rfl
  | give => rfl
  | bind port => exact (bound_bindPort w a port false).arrivals
  | connect =>
    have hbound := bound_bindPort w a 0 true
    simp only [World.call]
    split
    · rfl
    split
    case h_1 port w' heq =>
      rw [heq] at hbound
      exact hbound.arrivals
    case h_2 error w' heq =>
      rw [heq] at hbound
      exact hbound.arrivals
  | send =>
    simp only [World.call]
    split
    · rfl
    · split
      · rfl
      · split <;> rfl
  | receive =>
    simp only [World.call, receive]
    split
    · rfl
    · split <;> rfl
  | drop => rfl

theorem arrivals_incoming (w : World Thread) (t : Thread) (src dst : UInt32)
    (segment : List UInt8) : (w.incoming t src dst segment).arrivals = w.arrivals := by
  unfold incoming find
  split
  · split
    · rfl
    · split
      · rfl
      · split <;> rfl
  · rfl
  · rfl

/-- **Where a datagram goes.** A step puts at most one datagram into a queue, and that of a living
socket which is registered for the port. -/
theorem arrivals_step (h : w.Consistent) (action : Thread × Op Thread) :
    (w.step action).arrivals = w.arrivals ∨ ∃ arrival, (w.step action).arrivals = w.arrivals
        ++ [arrival]
        ∧ w.references arrival.owner ≠ 0 ∧ ⟨arrival.packet.port, arrival.owner⟩ ∈ w.ports := by
  obtain ⟨t, op⟩ := action
  unfold World.step
  split
  · exact .inl rfl
  cases op with
  | new =>
    dsimp only
    split <;> exact .inl rfl
  | call owner call =>
    dsimp only
    split
    · exact .inl (arrivals_call w t owner call)
    · exact .inl rfl
  | incoming src dst segment =>
    dsimp only
    split
    · exact .inl (arrivals_incoming w t src dst segment)
    · exact .inl rfl
  | advance =>
    dsimp only
    unfold advance
    split
    case h_1 => exact .inl rfl
    case h_2 => exact .inl rfl
    case h_3 owner peer data hjob =>
      have hlive := h.owned.live (t := t) (a := owner) (by rw [hjob]; rfl)
      exact .inl (h.transmit hlive peer data).2.arrivals
    case h_4 owner packet hjob =>
      unfold deliver
      dsimp only
      split
      · exact .inl rfl
      · refine .inr ⟨⟨owner, packet⟩, rfl, ?_, h.registered.delivering t owner packet hjob⟩
        exact h.owned.live (t := t) (a := owner) (by rw [hjob]; rfl)
    case h_5 => exact .inl rfl
    case h_6 =>
      unfold unregister
      split <;> exact .inl rfl
    case h_7 => exact .inl rfl

/-- A thread is about to drop a handle: one of its own, or the one that `incoming` has taken. -/
def Drops (w : World Thread) (action : Thread × Op Thread) (a : Nat) : Prop :=
  (action.2 = .call a .drop ∧ w.Ready action.1 a)
  ∨ (action.2 = .advance ∧ w.jobs action.1 = .finishing a)

theorem Drops.step_eq {w : World Thread} {action : Thread × Op Thread} {a : Nat}
    (h : w.Drops action a) (hrunning : w.panicked = false) :
    w.step action = w.dropHandle action.1 a := by
  rcases h with ⟨hop, hready⟩ | ⟨hop, hjob⟩
  · simp [World.step, hrunning, hop, hready, World.call]
  · simp [World.step, hrunning, hop, World.advance, hjob]

structure Sound (w : World Thread) : Prop where
  /-- A port has at most one entry in the table, and the resolver's port has none. -/
  unique : ∀ port a b, ⟨port, a⟩ ∈ w.ports → ⟨port, b⟩ ∈ w.ports → a = b ∧ port ≠ Dns.PORT
  bound : ∀ a, w.references a ≠ 0 → (w.value a).port ≠ 0 → ⟨(w.value a).port, a⟩ ∈ w.ports
  peers : ∀ a peer, (w.value a).peer = some peer → ∀ d ∈ (w.value a).queue, d.2.source = peer
  room : ∀ a, (w.value a).queue.length ≤ 16
  known : ∀ a, ∀ d ∈ (w.value a).queue, ∃ arrival, w.arrivals[d.1]? = some arrival
    ∧ arrival.owner = a ∧ arrival.packet.message = d.2
  /-- What arrives is queued at a living socket that is registered for its destination. -/
  registered : ∀ action arrival, (w.step action).arrivals = w.arrivals ++ [arrival] →
    w.references arrival.owner ≠ 0 ∧ ⟨arrival.packet.port, arrival.owner⟩ ∈ w.ports
  /-- A socket returns what has arrived in the order of arrival, each at most once. -/
  ordered : w.returned.Pairwise fun r r' => r.owner = r'.owner → r.serial < r'.serial
  /-- What is returned is a datagram that arrived at the socket, cut to the capacity, with the
  source that its segment gives. -/
  exact : ∀ r ∈ w.returned, ∃ arrival, w.arrivals[r.serial]? = some arrival
    ∧ arrival.owner = r.owner ∧ r.output = arrival.packet.message.data.take r.capacity
    ∧ r.source.ip = arrival.packet.src ∧ get16 arrival.packet.segment 0 = .ok r.source.port
  /-- When the last handle of a socket is dropped, any other socket without a port can have its
  port. -/
  reusable : ∀ action a, w.panicked = false → w.Drops action a → w.references a = 1 →
    (w.value a).port ≠ 0 → ∀ t b, (t, b) ∈ (w.step action).handles → ((w.step action).value b).port
      = 0 → ((w.step action).bindPort b (w.value a).port false).1 = .ok (w.value a).port
      ∧ ⟨(w.value a).port, b⟩ ∈ ((w.step action).bindPort b (w.value a).port false).2.ports

/-- **UDP sockets deliver correctly**, in every state that any number of threads can reach. -/
theorem sockets_sound (actions : List (Thread × Op Thread)) :
    (runAll World.step (initial : World Thread) actions).Sound := by
  have h := Consistent.run actions
  have hqueued := queued_run actions
  generalize runAll World.step (initial : World Thread) actions = w at h hqueued
  constructor
  case unique =>
    intro port a b ha hb
    have heq := inj_on_of_nodup_map h.registered.names ha hb rfl
    exact ⟨congrArg Port.owner heq, (h.registered.sound _ ha).2.1⟩
  case bound => exact h.registered.live
  case peers => exact hqueued.peers
  case room => exact hqueued.room
  case known => exact hqueued.known
  case registered =>
    intro action arrival harrival
    rcases arrivals_step h action with hsame | ⟨arrival', harrival', hregistered⟩
    · rw [hsame] at harrival
      simp at harrival
    · rw [harrival'] at harrival
      obtain rfl : arrival' = arrival := by simpa using harrival
      exact hregistered
  case ordered => exact hqueued.ordered
  case exact =>
    intro r hr
    obtain ⟨arrival, harrival, howner, houtput, hsource⟩ := hqueued.exact r hr
    obtain ⟨hip, hport, -⟩ := accept_datagram arrival.packet.accepted
    rw [hsource]
    exact ⟨arrival, harrival, howner, houtput, hip, hport⟩
  case reusable =>
    intro action a hrunning hdrops hlast hbound t b hmem hunbound
    have hdropped := h.step action
    rw [hdrops.step_eq hrunning] at hmem hunbound hdropped ⊢
    have hentry := h.registered.live a (by omega) hbound
    refine hdropped.bindPort_free ?_ hunbound hbound (h.registered.sound _ hentry).2.1 ?_
    · exact Nat.pos_iff_ne_zero.1 (hdropped.owned.counted.pos hmem)
    -- the only entry for the port is that of the socket whose last handle is gone
    intro c hc
    have heq := inj_on_of_nodup_map h.registered.names hc hentry rfl
    have hca : c = a := congrArg Port.owner heq
    subst hca
    change update w.references c (w.references c - 1) c = 0
    rw [update_self, hlast]

end World

end Kaguya.Udp
