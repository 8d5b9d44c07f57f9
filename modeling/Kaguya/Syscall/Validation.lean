import Kaguya.Syscall.Dispatch

/-!
# Every use of user memory is checked

Handler by handler, whatever the subsystems answer, the kernel uses only ranges that `user_range`
has granted in the same call; and a range that is granted is mapped for the user throughout.
-/

namespace Kaguya.Syscall

open Paging Checked List

variable {α : Type} {granted : List (Nat × Nat)} {a b c d e : Nat}

theorem validate_valid (h : Covered a b granted) :
    Valid (fun _ later => later = granted) (validate a b) granted := by
  rw [validate, valid_bind, valid_touch]
  exact ⟨h, fun _ => rfl⟩

variable {value : α} {rest : Kernel α} {length count i id : Nat}

theorem safe_validate (hcovered : Covered a b granted) (h : Safe rest granted) :
    Safe (validate a b >>= fun valid => if valid = false then pure value else rest) granted := by
  apply safe_bind (validate_valid hcovered)
  rintro valid later rfl
  exact safe_guard fun _ => h

theorem safe_success (h : Safe rest granted) :
    Safe (answer >>= fun reply : Reply => if reply.isOk = false then pure value else rest)
      granted :=
  safe_answer fun _ => safe_guard fun _ => h

theorem spawn_safe (hname : Covered a b granted) (harguments : Covered c d granted) :
    Safe (spawn a b c d) granted := by
  apply safe_touch hname
  apply safe_answer
  intro reply
  cases reply with
  | error => exact safe_pure
  | ok =>
    apply safe_guard
    intro _
    apply safe_success
    apply safe_touch harguments
    apply safe_success
    exact safe_answer fun _ => safe_pure

theorem spawnNamed_safe {plain : Bool} (hname : Covered a b granted)
    (harguments : plain = false → Covered c d granted) :
    Safe (spawnNamed a b c d plain) granted := by
  apply safe_validate hname
  cases plain with
  | true => exact spawn_safe hname covered_empty
  | false => exact spawn_safe hname (harguments rfl)

theorem fileName_valid :
    Valid (fun accepted later => accepted = true → Covered a b later) (fileName a b) granted := by
  rw [fileName, valid_ite]
  refine ⟨fun _ htrue => absurd htrue Bool.false_ne_true, fun _ => ?_⟩
  rw [valid_bind, valid_mayUse, valid_ite, valid_ite]
  have hnew : Covered a b ((a, b) :: granted) := covered_of_mem mem_cons_self
  refine ⟨⟨fun _ htrue => absurd htrue Bool.false_ne_true, fun _ => ?_⟩,
    fun _ htrue => absurd htrue Bool.false_ne_true, fun hne => absurd rfl hne⟩
  apply (validate_valid hnew).mono
  rintro valid later rfl _
  exact hnew

theorem safe_fileName (h : ∀ later, Covered a b later → Safe rest later) :
    Safe (fileName a b >>= fun accepted => if accepted = false then pure value else rest)
      granted := by
  apply safe_bind fileName_valid
  intro accepted later hname
  apply safe_guard
  intro haccepted
  exact h later (hname (Bool.eq_true_of_not_eq_false haccepted))

theorem regionCells_valid {row column cells width : Nat} (h : Covered cells (length * 12) granted)
    (hcount : i + count ≤ length) :
    Valid (fun _ _ => True) (regionCells row column cells width count i) granted := by
  induction count generalizing i with
  | zero => exact safe_pure
  | succ _ ih =>
    apply safe_guard
    intro _
    have hrest := ih (i := i + 1) (by omega)
    apply safe_branch
    · intro _
      exact safe_touch (h.part (by omega) (by omega)) hrest
    · intro _
      exact hrest

theorem listEntries_valid {pointer capacity : Nat} (h : Covered pointer (capacity * 64) granted)
    (hcount : i + count ≤ capacity) :
    Valid (fun _ _ => True) (listEntries pointer count i) granted := by
  induction count generalizing i with
  | zero => exact safe_pure
  | succ _ ih =>
    have hpart : ∀ offset size, offset + size ≤ 64 → Covered (pointer + i * 64 + offset) size
        granted :=
      fun offset size hfits => h.part (by omega) (by omega)
    apply safe_touch (hpart 0 64 (by omega))
    apply safe_answer
    intro reply
    apply safe_touch (hpart 0 _ (by omega))
    apply safe_touch (hpart 47 1 (by omega))
    apply safe_touch (hpart 48 8 (by omega))
    apply safe_touch (hpart 56 2 (by omega))
    exact ih (by omega)

theorem print_safe : Safe (print a b) granted := by
  have hgranted : Covered a b ((a, b) :: granted) := covered_of_mem mem_cons_self
  rw [Safe, print, valid_bind, valid_mayUse, valid_ite, valid_ite]
  refine ⟨⟨fun _ => ?_, fun hne => absurd rfl hne⟩, fun hfalse => absurd hfalse Bool.false_ne_true,
    fun _ => safe_pure⟩
  apply safe_bind (validate_valid hgranted)
  rintro valid later rfl
  exact safe_branch (fun _ => safe_touch hgranted safe_pure) fun _ => safe_pure

theorem thread_safe : Safe (thread a b) granted := by
  apply safe_check
  apply safe_guard
  intro _
  apply safe_check
  apply safe_success
  apply safe_success
  exact safe_answer fun _ => safe_pure

theorem createFile_safe : Safe (createFile a b c d) granted := by
  apply safe_fileName
  intro later hname
  apply safe_guard
  intro _
  apply safe_check
  apply safe_touch (hname.later _)
  apply safe_touch (covered_of_mem mem_cons_self)
  exact safe_answer fun _ => safe_pure

theorem readFile_safe : Safe (readFile a b c d) granted := by
  apply safe_fileName
  intro later hname
  apply safe_touch hname
  apply safe_answer
  intro reply
  cases reply with
  | error => exact safe_pure
  | ok =>
    apply safe_guard
    intro _
    apply safe_check
    exact safe_branch (fun _ => safe_touch (covered_of_mem mem_cons_self) safe_pure)
      fun _ => safe_pure

theorem deleteFile_safe : Safe (deleteFile a b) granted := by
  apply safe_fileName
  intro later hname
  apply safe_touch hname
  exact safe_answer fun _ => safe_pure

theorem spawnProgram_safe (hid : id = 21 ∨ id = 22) : Safe (spawnProgram id a b c d) granted := by
  apply safe_guard
  intro _
  apply safe_check
  have hname : Covered a b ((a, b) :: granted) := covered_of_mem mem_cons_self
  apply safe_branch
  · intro _
    apply safe_guard
    intro _
    apply safe_check
    exact spawnNamed_safe (hname.later _) fun _ => covered_of_mem mem_cons_self
  · intro hskipped
    apply spawnNamed_safe hname
    intro harguments
    have hplain := of_decide_eq_false harguments
    omega

theorem drawRegion_safe : Safe (drawRegion a b c d e) granted := by
  apply safe_guard
  intro _
  apply safe_guard
  intro _
  apply safe_check
  have hcells : Covered c (d * 12) ((c, d * 12) :: granted) := covered_of_mem mem_cons_self
  apply safe_bind (regionCells_valid hcells (Nat.le_of_eq (Nat.zero_add d)))
  exact fun _ _ _ => safe_pure

theorem list_safe : Safe (list a b) granted := by
  apply safe_answer
  intro reply
  cases reply with
  | error => exact safe_pure
  | ok length =>
    apply safe_branch
    · intro _
      apply safe_guard
      intro _
      apply safe_check
      have hentries : Covered a (b * 64) ((a, b * 64) :: granted) := covered_of_mem mem_cons_self
      apply safe_bind (listEntries_valid hentries (by omega : 0 + min b length ≤ b))
      exact fun _ _ _ => safe_pure
    · intro _
      exact safe_pure

theorem popEcho_safe : Safe (popEcho a b) granted := by
  apply safe_guard
  intro _
  apply safe_check
  apply safe_success
  have hrange : Covered a b ((a, b) :: granted) := covered_of_mem mem_cons_self
  exact safe_touch (hrange.part (Nat.le_refl _) (by omega)) safe_pure

theorem resolve_safe : Safe (resolve a b) granted := by
  apply safe_guard
  intro _
  apply safe_check
  have hname : Covered a b ((a, b) :: granted) := covered_of_mem mem_cons_self
  apply safe_validate hname
  apply safe_touch hname
  exact safe_answer fun _ => safe_pure

theorem submit_safe (h : Covered b c granted) : Safe (submit b c d e) granted := by
  apply safe_guard
  intro _
  apply safe_answer
  intro reply
  cases reply with
  | error => exact safe_pure
  | ok socket => exact safe_touch h (safe_answer fun _ => safe_pure)

theorem sendTo_safe : Safe (sendTo b c d e) granted := by
  apply safe_branch
  · intro _
    exact safe_check (submit_safe (covered_of_mem mem_cons_self))
  · intro hempty
    rw [not_not.mp hempty]
    exact submit_safe covered_empty

theorem deliver_safe (h : Covered b c granted) (hpeer : d ≠ 0 → Covered d 8 granted) :
    Safe (deliver b c d) granted := by
  apply safe_answer
  intro reply
  cases reply with
  | error => exact safe_pure
  | ok =>
    apply safe_touch h
    apply safe_answer
    intro reply
    cases reply with
    | error => exact safe_pure
    | ok =>
      apply safe_branch
      · intro hne
        have hpart := hpeer hne
        apply safe_touch (hpart.part (Nat.le_refl _) (by omega))
        apply safe_touch (hpart.part (by omega) (by omega))
        exact safe_touch (hpart.part (by omega) (by omega)) safe_pure
      · intro _
        exact safe_pure

theorem receiveFrom_peer (h : Covered b c granted) :
    Safe (do
      if d ≠ 0 then
        if d &&& 3 ≠ 0 then return INVALID
        if (← mayUse d 8) = false then return INVALID
      deliver b c d) granted := by
  apply safe_branch
  · intro _
    apply safe_guard
    intro _
    apply safe_check
    exact deliver_safe (h.later _) fun _ => covered_of_mem mem_cons_self
  · intro hnone
    exact deliver_safe h fun hne => absurd hne hnone

theorem receiveFrom_safe : Safe (receiveFrom b c d) granted := by
  apply safe_branch
  · intro _
    apply safe_check
    exact receiveFrom_peer (covered_of_mem mem_cons_self)
  · intro hempty
    rw [not_not.mp hempty]
    exact receiveFrom_peer covered_empty

theorem openFile_safe : Safe (openFile a b) granted := by
  apply safe_guard
  intro _
  apply safe_check
  have hname : Covered a b ((a, b) :: granted) := covered_of_mem mem_cons_self
  apply safe_validate hname
  apply safe_touch hname
  exact safe_answer fun _ => safe_pure

theorem transfer_safe : Safe (transfer b c) granted := by
  apply safe_guard
  intro _
  apply safe_check
  apply safe_touch (covered_of_mem mem_cons_self)
  exact safe_answer fun _ => safe_pure

theorem makePipe_safe : Safe (makePipe a) granted := by
  apply safe_guard
  intro _
  apply safe_check
  apply safe_answer
  intro reply
  have hpair : Covered a 16 ((a, 16) :: granted) := covered_of_mem mem_cons_self
  cases reply with
  | error => exact safe_pure
  | ok =>
    apply safe_touch (hpair.part (Nat.le_refl _) (by omega))
    exact safe_touch (hpair.part (by omega) (by omega)) safe_pure

theorem inherit_safe (hname : Covered a b granted) (harguments : d ≠ 0 → Covered c d granted) :
    Safe (inherit a b c d e) granted := by
  apply safe_guard
  intro _
  apply safe_check
  have hstdio : Covered e 24 ((e, 24) :: granted) := covered_of_mem mem_cons_self
  apply safe_touch (hstdio.part (Nat.le_refl _) (by omega))
  apply safe_touch (hstdio.part (by omega) (by omega))
  apply safe_touch (hstdio.part (by omega) (by omega))
  apply safe_success
  apply spawnNamed_safe (hname.later _)
  intro hplain
  exact (harguments (of_decide_eq_false hplain)).later _

theorem spawnWith_safe : Safe (spawnWith a b c d e) granted := by
  apply safe_guard
  intro _
  apply safe_check
  have hname : Covered a b ((a, b) :: granted) := covered_of_mem mem_cons_self
  apply safe_branch
  · intro _
    apply safe_check
    exact inherit_safe (hname.later _) fun _ => covered_of_mem mem_cons_self
  · intro hnone
    exact inherit_safe hname fun hne => absurd hne hnone

theorem ask_safe :
    Safe (do return (← answer).value : Kernel Nat) granted := safe_answer fun _ => safe_pure

theorem dispatchFiles_safe : Safe (dispatchFiles id a b c d e) granted := by
  apply safe_success
  split
  · exact openFile_safe
  · exact transfer_safe
  · exact transfer_safe
  · exact ask_safe
  · exact ask_safe
  · exact makePipe_safe
  · exact spawnWith_safe
  · exact ask_safe
  · exact ask_safe
  · apply safe_guard
    intro _
    apply safe_answer
    intro reply
    cases reply with
    | error => exact safe_pure
    | ok => exact ask_safe
  · exact safe_guard fun _ => ask_safe
  · exact sendTo_safe
  · exact receiveFrom_safe
  · exact safe_pure

theorem dispatch_safe (id a b c d e : Nat) : Safe (dispatch id a b c d e) granted := by
  unfold dispatch
  split
  · exact print_safe
  · exact safe_pure
  · exact safe_pure
  · exact thread_safe
  · exact safe_pure
  · exact trivial
  · exact safe_pure
  · exact trivial
  · exact ask_safe
  · exact safe_pure
  · exact safe_pure
  · exact ask_safe
  · exact list_safe
  · exact createFile_safe
  · exact readFile_safe
  · exact deleteFile_safe
  · exact ask_safe
  · exact ask_safe
  · exact trivial
  · exact safe_pure
  · exact drawRegion_safe
  · exact spawnProgram_safe (.inl rfl)
  · exact spawnProgram_safe (.inr rfl)
  · exact safe_branch (fun _ => ask_safe) fun _ => safe_pure
  · exact popEcho_safe
  · exact safe_pure
  · exact ask_safe
  · exact resolve_safe
  · exact safe_success ask_safe
  · exact dispatchFiles_safe

variable {m : Machine} {root address last required : Nat}

def UserMapped (m : Machine) (root address : Nat) : Prop :=
  (∀ word ∈ translation m root address, word &&& (PRESENT ||| USER) = PRESENT ||| USER)
    ∧ 1 < (translation m root address).length

theorem translation_page :
    translation m root (address / 4096 * 4096) = translation m root address := by
  have hslot : ∀ shift ∈ [39, 30, 21, 12], slot shift (address / 4096 * 4096) = slot shift
      address := by
    intro shift hshift
    have hpage : (address / 4096 * 4096) >>> shift = address >>> shift := by
      rw [Nat.shiftRight_eq_div_pow, Nat.shiftRight_eq_div_pow]
      simp only [mem_cons, not_mem_nil, or_false] at hshift
      obtain rfl | rfl | rfl | rfl := hshift <;> omega
    rw [slot, slot, hpage]
  rw [translation, translation, slots, slots, map_congr_left hslot]

theorem presentFrom_words (shifts : List Nat) {table : Nat} (hshifts : ∀ shift ∈ shifts, shift ≠ 12)
    (h : presentFrom m address required (shifts ++ [12]) table = true) :
    ∀ word ∈ Trie.walk tableOf m.entry (slots address (shifts ++ [12])) table,
      word &&& required = required := by
  induction shifts generalizing table with
  | nil =>
    by_cases hword : m.entry table (slot 12 address) &&& required = required
    · intro word hmem
      cases mem_cons.mp hmem with
      | inl heq => rwa [heq]
      | inr hrest =>
        cases htable : tableOf (m.entry table (slot 12 address)) with
        | none =>
          rw [htable] at hrest
          cases hrest
        | some =>
          rw [htable] at hrest
          cases hrest
    · simp [presentFrom, hword] at h
  | cons shift shifts ih =>
    have hshift : shift ≠ 12 := hshifts shift mem_cons_self
    by_cases hword : m.entry table (slot shift address) &&& required = required
    · intro word hmem
      cases mem_cons.mp hmem with
      | inl heq => rwa [heq]
      | inr hrest =>
        cases htable : tableOf (m.entry table (slot shift address)) with
        | none =>
          rw [htable] at hrest
          cases hrest
        | some next =>
          rw [htable] at hrest
          rw [tableOf] at htable
          split at htable
          · cases htable
          next hnot =>
            rw [not_or, not_not] at hnot
            cases htable
            apply ih (fun other hother => hshifts other (mem_cons_of_mem _ hother)) _ word hrest
            simpa [presentFrom, hword, hshift, hnot.2] using h
    · simp [presentFrom, hword] at h

theorem userMapped_of_present (h : pagePresent m root address (PRESENT ||| USER) = true) :
    UserMapped m root address := by
  have hwords := presentFrom_words [39, 30, 21] (by decide) h
  refine ⟨hwords, ?_⟩
  have hword : m.entry root (slot 39 address) &&& (PRESENT ||| USER) = PRESENT ||| USER :=
    hwords _ mem_cons_self
  have hpresent : m.entry root (slot 39 address) &&& PRESENT ≠ 0 := by
    have hboth : m.entry root (slot 39 address) &&& PRESENT
        = m.entry root (slot 39 address) &&& (PRESENT ||| USER) &&& PRESENT := by
      rw [Nat.and_assoc]
      rfl
    rw [hboth, hword]
    decide
  by_cases hhuge : m.entry root (slot 39 address) &&& HUGE = 0
  · change 1 < (_ :: _).length
    rw [tableOf_eq_some hpresent hhuge]
    exact Nat.succ_lt_succ (Nat.zero_lt_succ _)
  · simp [pagePresent, presentFrom, hword, hhuge] at h

theorem pagesPresent_page {pages first page : Nat}
    (h : pagesPresent m root last required pages first = true) (hfirst : first % 4096 = 0)
    (hpage : page % 4096 = 0) (hlo : first ≤ page) (hhi : page ≤ last) :
    pagePresent m root page required = true := by
  induction pages generalizing first with
  | zero => cases h
  | succ _ ih =>
    rw [pagesPresent] at h
    by_cases hpresent : pagePresent m root first required = true
    · by_cases hsame : first = page
      · rwa [← hsame]
      · have hnotLast : first ≠ last := by omega
        simp only [hpresent, hnotLast, Bool.true_eq_false, if_false] at h
        exact ih h (by omega) (by omega)
    · simp [hpresent] at h

theorem userMapped_of_rangeMapped {start : Nat} (h : rangeMapped m root start length true = true)
    (hlo : start ≤ address) (hhi : address < start + length) : UserMapped m root address := by
  have hpage : pagePresent m root (address / 4096 * 4096) (PRESENT ||| USER) = true := by
    rw [rangeMapped, if_neg (by omega)] at h
    split at h
    · cases h
    dsimp only at h
    split at h
    · cases h
    split at h
    · cases h
    exact pagesPresent_page h (by omega) (by omega) (by omega) (by omega)
  have hmapped := userMapped_of_present hpage
  rw [UserMapped, translation_page] at hmapped
  exact hmapped

/-- **Every access to user memory is validated.** Whatever the call, its arguments and the
subsystems' answers, a range that the kernel uses lies within one that `user_range` has granted
earlier in the call; and the bytes of a granted range are the user's and mapped for the user in the
caller's space. -/
theorem user_memory_validated :
    (∀ (views : Nat → View) (answers : Nat → Reply) (id a b c d e start length : Nat)
        (before after : List Event),
      exec (fun moment => userRange (views moment)) answers 0 (dispatch id a b c d e)
        = before ++ .used start length :: after → 0 < length →
      ∃ first count, .checked first count true ∈ before ∧ first ≤ start
        ∧ start + length ≤ first + count)
      ∧ ∀ (view : View) (pointer length : Nat), userRange view pointer length = true → 0 < length →
        ∀ address, pointer ≤ address → address < pointer + length → address < 0x800000000000
          ∧ ∃ root, view.root = some root ∧ UserMapped view.machine root address := by
  constructor
  · intro views answers id a b c d e start length before after hrun hlength
    have hsafe : Safe (dispatch id a b c d e) [] := dispatch_safe id a b c d e
    cases exec_covered hsafe hrun with
    | inl hcovered =>
      cases hcovered with
      | inl => omega
      | inr hwithin =>
        obtain ⟨range, hmem, -⟩ := hwithin
        cases hmem
    | inr hchecked => exact hchecked
  · intro view pointer length hrange hlength address hlo hhi
    rw [userRange] at hrange
    split at hrange
    · cases hrange
    refine ⟨by omega, ?_⟩
    cases hroot : view.root with
    | none =>
      rw [hroot] at hrange
      cases hrange
    | some root =>
      rw [hroot] at hrange
      exact ⟨root, rfl, userMapped_of_rangeMapped hrange hlo hhi⟩

def openView : View :=
  { root := some 0
    machine :=
      { memory := fun i => if i % 8 = 0 then 7 else 0, inUse := [], supply := fun _ => 0,
        links := fun _ => 0, calls := 0, allocated := [], freed := [] } }

/-- Printing five bytes checks them once and uses them twice. -/
theorem user_memory_validated_print :
    exec (fun _ => userRange openView) (fun _ => .ok 0) 0 (dispatch 0 0x400000000000 5 0 0 0)
        = [.checked 0x400000000000 5 true, .used 0x400000000000 5, .used 0x400000000000 5]
      ∧ (∃ first count, Event.checked first count true ∈ [Event.checked 0x400000000000 5 true]
        ∧ first ≤ 0x400000000000 ∧ 0x400000000000 + 5 ≤ first + count)
      ∧ ∃ root, openView.root = some root ∧ UserMapped openView.machine root 0x400000000004 := by
  have hrun : exec (fun _ => userRange openView) (fun _ => .ok 0) 0
      (dispatch 0 0x400000000000 5 0 0 0) = [.checked 0x400000000000 5 true, .used 0x400000000000 5,
      .used 0x400000000000 5] := by
    decide
  refine ⟨hrun, ?_, ?_⟩
  · exact user_memory_validated.1 (fun _ => openView) (fun _ => .ok 0) 0 0x400000000000 5 0 0 0
      0x400000000000 5 [.checked 0x400000000000 5 true] [.used 0x400000000000 5] hrun (by decide)
  · exact (user_memory_validated.2 openView 0x400000000000 5 (by decide) (by decide) 0x400000000004
      (by decide) (by decide)).2

end Kaguya.Syscall
