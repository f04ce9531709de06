import SysProg.Booking.Limit

/-!
# SysProg.Booking.Isolation

What the locks are for. From the invariant of `Sessions`:

* at most one connection of all servers has a write session on a record, and none has a read
  session on it at the same time (`writeSession_unique`, `not_read_and_write`);
* so while a write session is open only its own command changes the record
  (`file_of_writeSession`), and what the client was shown is what the command is checked against
  (`shows_step`);
* the file is the initial one plus the accepted commands (`file_run`).

`session_isolation` puts them together.

An `accepted` command is one for which `handle_read` returns 1.
-/

set_option linter.unusedSectionVars false

namespace SysProg.Booking

open LockType

section

variable {P : Type} [DecidableEq P] [Fintype P] {build : P → Build} {w w' : World P}

/-- The return value of the call of `handle_read` that the event leads to. -/
def retAt (build : P → Build) (w : World P) : Event P → Option Int
  | .accept _ _ => none
  | .recv p fd r =>
    match (w.handle build p fd r).1 with
    | .ret val _ _ => some val
    | .exit => none

/-- The command the event submits, if it is accepted. -/
def acceptedAt (build : P → Build) (w : World P) (e : Event P) :
    Option (CInt × (Fin 3 → CInt)) :=
  if retAt build w e = some 1 then commandAt build w e else none

/-- The return value on a command line that parses. -/
def verdict (b nums : Fin 3 → CInt) : Int :=
  if overLimit b nums then 2 else if underZero b nums then 3 else 1

theorem command_outcome {buf : Text} {nums : Fin 3 → CInt}
    (h : myatoi buf = some nums) (reqP : Request) (p : P) (sl : SelfLock) (s : Kernel P) :
    ∃ q sl', ((handleWriterCommand buf reqP sl).exec p s).1 =
      .ret (verdict (s.file (reqP.id - HEAD)).bookingState nums) q sl' := by
  simp only [handleWriterCommand, h, verdict, Sys.exec]
  by_cases ho : overLimit (s.file (reqP.id - HEAD)).bookingState nums = true
  · rw [if_pos ho, if_pos ho, exec_mylockFunction_unlck]
    exact ⟨_, _, rfl⟩
  · by_cases hu : underZero (s.file (reqP.id - HEAD)).bookingState nums = true
    · rw [if_neg ho, if_neg ho, if_pos hu, if_pos hu, exec_mylockFunction_unlck]
      exact ⟨_, _, rfl⟩
    · rw [if_neg ho, if_neg ho, if_neg hu, if_neg hu]
      simp only [Sys.exec, exec_mylockFunction_unlck]
      exact ⟨_, _, rfl⟩

theorem retAt_command {e : Event P} {k : CInt} {nums : Fin 3 → CInt}
    (h : commandAt build w e = some (k, nums)) :
    retAt build w e = some (verdict (w.kernel.file k).bookingState nums) := by
  cases e with
  | accept _ _ => cases h
  | recv p fd r =>
    obtain ⟨hc, hk⟩ := commandAt_recv.1 h
    obtain ⟨buf, hbuf, hread⟩ := handleRead_command hc (w.server p).selfLock
    obtain ⟨q, sl', hout⟩ := command_outcome hbuf ((w.server p).requestP fd) p
      (w.server p).selfLock w.kernel
    have hkk : ((w.server p).requestP fd).id - HEAD = k := by
      rw [hk, BitVec.add_comm, BitVec.add_sub_cancel]
    simp only [retAt, World.handle, hread, hout, hkk]

theorem acceptedAt_iff {e : Event P} {k : CInt} {nums : Fin 3 → CInt} :
    acceptedAt build w e = some (k, nums) ↔ commandAt build w e = some (k, nums) ∧
      overLimit (w.kernel.file k).bookingState nums = false ∧
      underZero (w.kernel.file k).bookingState nums = false := by
  have hv : verdict (w.kernel.file k).bookingState nums = 1 ↔
      overLimit (w.kernel.file k).bookingState nums = false ∧
        underZero (w.kernel.file k).bookingState nums = false := by
    unfold verdict
    cases overLimit (w.kernel.file k).bookingState nums <;>
      cases underZero (w.kernel.file k).bookingState nums <;> simp
  unfold acceptedAt
  constructor
  · intro h
    split at h
    · rename_i h1
      rw [retAt_command h] at h1
      exact ⟨h, hv.1 (by simpa using h1)⟩
    · cases h
  · rintro ⟨h, hg⟩
    rw [retAt_command h, hv.2 hg, if_pos rfl]
    exact h

/-- The records of the file after a step: only an accepted command changes them. -/
theorem file_acceptedAt {e : Event P} (hi : Inv build w) (h : w.step build e = some w') :
    w'.kernel.file = match acceptedAt build w e with
      | none => w.kernel.file
      | some (k, nums) => fun k' => if k' = k then
          { w.kernel.file k with
            bookingState := fun i => (w.kernel.file k).bookingState i + nums i }
          else w.kernel.file k' := by
  cases file_step hi h with
  | same hfile hrej =>
    cases ha : acceptedAt build w e with
    | none => exact hfile
    | some c =>
      obtain ⟨hc, ho, hu⟩ := acceptedAt_iff.1 ha
      rcases hrej _ _ hc with hr | hr
      · rw [ho] at hr; cases hr
      · rw [hu] at hr; cases hr
  | booked hc _ ho hu hfile =>
    rw [acceptedAt_iff.2 ⟨hc, ho, hu⟩]
    exact hfile

/-! ## At most one write session on a record -/

theorem writeSession_locks {p : P} {fd : Nat} {k : CInt} (hi : Inv build w)
    (h : WriteSession build w p fd k) : w.kernel.locks k p = wrlck := by
  obtain ⟨hb, hs⟩ := h
  have hp := hi.alive p hs.1
  rw [hb] at hp
  have hpos : 0 < ((w.server p).shown .writer k).card := Finset.card_pos.2 ⟨fd, hp.mem_shown_iff.2 hs⟩
  have := hp.count k
  rw [hp.held k, if_pos (by omega)]
  rfl

theorem readSession_locks {p : P} {fd : Nat} {k : CInt} (hi : Inv build w)
    (h : ReadSession build w p fd k) : w.kernel.locks k p = rdlck := by
  obtain ⟨hb, hs⟩ := h
  have hp := hi.alive p hs.1
  rw [hb] at hp
  have hpos : 0 < ((w.server p).shown .reader k).card := Finset.card_pos.2 ⟨fd, hp.mem_shown_iff.2 hs⟩
  have := hp.count k
  rw [hp.held k, if_pos (by omega)]
  rfl

theorem writeSession_unique {p q : P} {fd fd' : Nat} {k : CInt} (hi : Inv build w)
    (h : WriteSession build w p fd k) (h' : WriteSession build w q fd' k) : p = q ∧ fd = fd' := by
  have hpq : p = q := by
    by_contra hne
    have := hi.compatible.wrlck_alone (writeSession_locks hi h) (Ne.symm hne)
    rw [writeSession_locks hi h'] at this
    cases this
  subst hpq
  have hp := hi.alive p h.2.1
  rw [h.1] at hp
  have hcard : ((w.server p).shown .writer k).card ≤ 1 := by
    have := hp.count k
    have := hp.single rfl k
    omega
  exact ⟨rfl, Finset.card_le_one.1 hcard fd (hp.mem_shown_iff.2 h.2) fd' (hp.mem_shown_iff.2 h'.2)⟩

theorem not_read_and_write {p q : P} {fd fd' : Nat} {k : CInt} (hi : Inv build w)
    (h : ReadSession build w p fd k) : ¬ WriteSession build w q fd' k := by
  intro h'
  have hne : p ≠ q := by
    rintro rfl
    have := h.1.symm.trans h'.1
    cases this
  have := hi.compatible.wrlck_alone (writeSession_locks hi h') hne
  rw [readSession_locks hi h] at this
  cases this

theorem commandAt_session {e : Event P} {k : CInt} {nums : Fin 3 → CInt}
    (h : w.step build e = some w') (hc : commandAt build w e = some (k, nums)) :
    ∃ p fd r, e = .recv p fd r ∧ WriteSession build w p fd k := by
  cases e with
  | accept _ _ => cases hc
  | recv p fd r =>
    obtain ⟨hcmd, hid⟩ := commandAt_recv.1 hc
    obtain ⟨hb, hbusy, _, _⟩ := commandOf_some hcmd
    have hserve : (w.server p).canServe fd = true := by
      by_contra hn
      simp only [World.step, if_neg hn] at h
      cases h
    obtain ⟨hal, _, _, hopen⟩ := canServe_iff.1 hserve
    rw [hb] at hbusy
    exact ⟨p, fd, r, rfl, hb, hal, hopen, hbusy, hid⟩

/-- While a write session is open, only its own connection changes the record. -/
theorem file_of_writeSession {p : P} {fd : Nat} {k : CInt} {e : Event P} (hi : Inv build w)
    (hs : WriteSession build w p fd k) (h : w.step build e = some w') (he : ∀ r, e ≠ .recv p fd r) :
    w'.kernel.file k = w.kernel.file k := by
  rw [file_acceptedAt hi h]
  cases ha : acceptedAt build w e with
  | none => rfl
  | some c =>
    obtain ⟨k', nums⟩ := c
    have hc := (acceptedAt_iff.1 ha).1
    obtain ⟨q, fd', r, rfl, hs'⟩ := commandAt_session h hc
    have hk : k ≠ k' := by
      rintro rfl
      obtain ⟨rfl, rfl⟩ := writeSession_unique hi hs hs'
      exact he r rfl
    exact if_neg hk

theorem no_write_opens {p : P} {fd : Nat} {k : CInt} {e : Event P} (hi : Inv build w)
    (hs : ReadSession build w p fd k) (h : w.step build e = some w') (q : P) (fd' : Nat) :
    ¬ WriteSession build w' q fd' k := by
  intro hw
  obtain ⟨a, _, hother⟩ := step_cases hi h
  by_cases e : p = a
  · have hqa : q ≠ a := by
      rintro rfl
      have := hs.1.symm.trans (e ▸ hw.1)
      cases this
    refine not_read_and_write hi hs (show WriteSession build w q fd' k from ?_)
    unfold WriteSession at hw ⊢
    rwa [hother q hqa] at hw
  · refine not_read_and_write (hi.step h) (show ReadSession build w' p fd k from ?_) hw
    unfold ReadSession at hs ⊢
    rwa [hother p e]

end

/-! ## What the client was shown -/

/-- Every outcome the program can end with satisfies `Q`, whatever the kernel answers. -/
def Sys.Ends {α : Type} (Q : α → Prop) : Sys α → Prop
  | .done a => Q a
  | .getlk _ _ cont => ∀ type, (cont type).Ends Q
  | .setlk _ _ cont => cont.Ends Q
  | .readRec _ cont => ∀ r, (cont r).Ends Q
  | .writeRec _ _ cont => cont.Ends Q

theorem Sys.Ends.exec {P α : Type} [DecidableEq P] [Fintype P] {Q : α → Prop} {prog : Sys α} (p : P) :
    ∀ {s : Kernel P}, prog.Ends Q → Q (prog.exec p s).1 := by
  induction prog with
  | done a => exact fun h => h
  | getlk k type cont ih => intro s h; exact ih _ (h _)
  | setlk k type cont ih => intro s h; exact ih h
  | readRec k cont ih => intro s h; exact ih _ (h _)
  | writeRec k r cont ih => intro s h; exact ih h

theorem Sys.Ends.mono {α : Type} {Q Q' : α → Prop} {prog : Sys α} (hQ : ∀ a, Q a → Q' a) :
    prog.Ends Q → prog.Ends Q' := by
  induction prog with
  | done a => exact hQ a
  | getlk k type cont ih => exact fun h type => ih type (h type)
  | setlk k type cont ih => exact ih
  | readRec k cont ih => exact fun h r => ih r (h r)
  | writeRec k r cont ih => exact ih

/-- `handle_read` changes neither the descriptor nor the phase of a request. -/
def SamePhase (reqP : Request) : Outcome → Prop
  | .exit => True
  | .ret val reqP' _ => reqP'.connFd = reqP.connFd ∧ reqP'.waitForWrite = reqP.waitForWrite ∧
      (val < 0 → reqP' = reqP)

theorem mylockFunction_ends {α : Type} {Q : α → Prop} {b : Build} {reqP : Request} {sl : SelfLock}
    {type : LockType} {cont : SelfLock → Sys α} (h : ∀ sl, (cont sl).Ends Q) :
    (mylockFunction b reqP sl type cont).Ends Q := by
  unfold mylockFunction
  cases b with
  | writer => exact h _
  | reader =>
    cases type with
    | unlck =>
      simp only []
      split
      · exact h _
      · exact h _
    | rdlck => exact h _
    | wrlck => exact h _

theorem handleReader_ends (buf : Text) (reqP : Request) (sl : SelfLock) :
    (handleReader buf reqP sl).Ends fun out => out ≠ .exit ∧ SamePhase reqP out := by
  unfold handleReader
  split
  · split
    · exact mylockFunction_ends fun sl => ⟨nofun, rfl, rfl, fun h => absurd h (by decide)⟩
    · exact ⟨nofun, rfl, rfl, fun _ => rfl⟩
  · simp only []
    split
    · exact ⟨nofun, rfl, rfl, fun h => absurd h (by decide)⟩
    · intro type
      simp only []
      split
      · exact ⟨nofun, rfl, rfl, fun h => absurd h (by decide)⟩
      · exact mylockFunction_ends fun sl _ => ⟨nofun, rfl, rfl, fun h => absurd h (by decide)⟩

theorem handleWriterId_ends (buf : Text) (reqP : Request) (sl : SelfLock) :
    (handleWriterId buf reqP sl).Ends fun out => out ≠ .exit ∧ SamePhase reqP out := by
  unfold handleWriterId
  simp only []
  split
  · exact ⟨nofun, rfl, rfl, fun h => absurd h (by decide)⟩
  · intro type
    simp only []
    split
    · exact ⟨nofun, rfl, rfl, fun h => absurd h (by decide)⟩
    · exact mylockFunction_ends fun sl _ => ⟨nofun, rfl, rfl, fun h => absurd h (by decide)⟩

theorem handleWriterCommand_ends (buf : Text) (reqP : Request) (sl : SelfLock) :
    (handleWriterCommand buf reqP sl).Ends fun out => out ≠ .exit ∧ SamePhase reqP out := by
  unfold handleWriterCommand
  split
  · exact mylockFunction_ends fun sl => ⟨nofun, rfl, rfl, fun _ => rfl⟩
  · intro temp
    simp only []
    split
    · exact mylockFunction_ends fun sl => ⟨nofun, rfl, rfl, fun _ => rfl⟩
    · split
      · exact mylockFunction_ends fun sl => ⟨nofun, rfl, rfl, fun _ => rfl⟩
      · exact fun _ => mylockFunction_ends fun sl => ⟨nofun, rfl, rfl, fun h => absurd h (by decide)⟩

theorem handleRead_ends (b : Build) (r : ReadResult) (reqP : Request) (sl : SelfLock) :
    (handleRead b r reqP sl).Ends (SamePhase reqP) := by
  have hcase := handleRead_case b r reqP sl
  generalize handleRead b r reqP sl = prog at hcase
  cases hcase with
  | failed => exact ⟨rfl, rfl, fun _ => rfl⟩
  | ended => exact ⟨rfl, rfl, fun _ => rfl⟩
  | line _ _ hline =>
    cases hline with
    | part => exact trivial
    | interrupt => exact mylockFunction_ends fun sl => ⟨rfl, rfl, fun _ => rfl⟩
    | interruptIdle => exact ⟨rfl, rfl, fun _ => rfl⟩
    | reader => exact (handleReader_ends _ _ _).mono fun _ h => h.2
    | writerId => exact (handleWriterId_ends _ _ _).mono fun _ h => h.2
    | writerCommand => exact (handleWriterCommand_ends _ _ _).mono fun _ h => h.2

theorem mem_send {fd : Int} {text : Text} {m : Int × Text} (h : m ∈ send fd text) :
    m.1 = fd ∧ fd ≠ -1 := by
  unfold send at h
  split at h
  · cases h
  · rename_i hfd
    simp only [List.mem_singleton] at h
    subst h
    exact ⟨rfl, hfd⟩

theorem mem_reply {b : Build} {reqP : Request} {m : Int × Text} (h : m ∈ (reply b reqP).2) :
    m.1 = reqP.connFd ∧ reqP.connFd ≠ -1 := by
  unfold reply at h
  cases b with
  | reader =>
    simp only [] at h
    split at h
    · cases h
    · rcases List.mem_append.1 h with h | h
      · exact mem_send h
      · exact mem_send h
  | writer =>
    simp only [] at h
    split at h
    · rcases List.mem_append.1 h with h | h
      · exact mem_send h
      · exact mem_send h
    · rcases List.mem_append.1 h with h | h
      · exact mem_send h
      · exact mem_send h

/-- `main` answers on the connection it has just read from. -/
theorem mem_afterRead {b : Build} {val : Int} {reqP : Request} {m : Int × Text}
    (h : m ∈ (afterRead b val reqP).2) : m.1 = reqP.connFd := by
  unfold afterRead at h
  split at h
  · exact (mem_reply h).1
  · split at h
    · cases h
    · rcases List.mem_append.1 h with h | h
      · split at h
        · exact (mem_send h).1
        · cases h
      · exact absurd rfl (mem_reply h).2

theorem afterRead_connFd (b : Build) (val : Int) (reqP : Request) :
    (afterRead b val reqP).1.connFd = reqP.connFd ∨ (afterRead b val reqP).1.connFd = -1 := by
  by_cases h1 : val = 1
  · subst h1
    rw [afterRead_one]
    unfold reply
    cases b with
    | reader =>
      simp only []
      split
      · exact .inr rfl
      · exact .inl rfl
    | writer =>
      simp only []
      split
      · exact .inl rfl
      · exact .inr rfl
  · by_cases hneg : val < 0
    · left; simp [afterRead, h1, hneg]
    · exact .inr (afterRead_closed b reqP h1 (by omega)).1

/-- A session that has its command is over, unless `read` failed. -/
theorem afterRead_ends {val : Int} {reqP : Request} (hw : reqP.waitForWrite = false)
    (hneg : 0 ≤ val) : (afterRead .writer val reqP).1.connFd = -1 := by
  by_cases h1 : val = 1
  · subst h1
    simp [afterRead_one, reply, hw, freeRequest, initRequest]
  · exact (afterRead_closed .writer reqP h1 hneg).1

/-- The only way into a write session is the reply with the listing. -/
theorem afterRead_opens {val : Int} {reqP : Request} (hw : reqP.waitForWrite = true)
    (hc : (afterRead .writer val reqP).1.connFd ≠ -1) (hneg : 0 ≤ val) :
    (afterRead .writer val reqP).1.buf = reqP.buf ∧ reqP.connFd ≠ -1 ∧
      (afterRead .writer val reqP).2 = [(reqP.connFd, reqP.buf), (reqP.connFd, commandMsg)] := by
  by_cases h1 : val = 1
  · subst h1
    have hr : afterRead .writer 1 reqP = ({ reqP with waitForWrite := false },
        send reqP.connFd reqP.buf ++ send reqP.connFd commandMsg) := by
      rw [afterRead_one]; simp only [reply, hw, if_true]
    rw [hr] at hc ⊢
    have hc : reqP.connFd ≠ -1 := hc
    refine ⟨rfl, hc, ?_⟩
    simp only [send, if_neg hc]
    rfl
  · exact (hc (afterRead_closed .writer reqP h1 hneg).1).elim

/-- The last two messages on the connection are the listing of `counts` and the prompt for a
command. -/
def Server.LastShown (sv : Server) (fd : Nat) (counts : Fin 3 → CInt) : Prop :=
  ∃ before after, sv.sent =
      before ++ ((fd : Int), listing counts) :: ((fd : Int), commandMsg) :: after ∧
    ∀ m ∈ after, m.1 ≠ fd

theorem Server.LastShown.append {sv sv' : Server} {fd : Nat} {counts : Fin 3 → CInt} {ms : Sent}
    (h : sv.LastShown fd counts) (hs : sv'.sent = sv.sent ++ ms) (hm : ∀ m ∈ ms, m.1 ≠ fd) :
    sv'.LastShown fd counts := by
  obtain ⟨before, after, e, ha⟩ := h
  refine ⟨before, after ++ ms, by rw [hs, e]; simp, ?_⟩
  intro m h
  rcases List.mem_append.1 h with h | h
  · exact ha m h
  · exact hm m h

section

variable {P : Type} [DecidableEq P] [Fintype P] {build : P → Build} {w w' : World P}

/-- The client of a write session was shown the counts that the record has now. -/
structure Shows (build : P → Build) (w : World P) : Prop where
  conn : ∀ p fd, ((w.server p).requestP fd).connFd ≠ -1 → ((w.server p).requestP fd).connFd = fd
  shown : ∀ p fd k, WriteSession build w p fd k →
    (w.server p).LastShown fd (w.kernel.file k).bookingState

theorem World.Init.shows (h : w.Init) : Shows build w := by
  constructor
  · intro p fd hc; exact (hc ((h.fresh p).connFd fd)).elim
  · intro p fd k hs; exact (hs.2.2.1 ((h.fresh p).connFd fd)).elim

theorem StepCase.process {p q : P} {fd : Nat} {r : ReadResult} {sv : Server} {s : Kernel P}
    (h : StepCase build w q (.recv p fd r) sv s) : q = p := by
  cases h <;> rfl

theorem StepCase.effect {p : P} {fd : Nat} {r : ReadResult} {sv : Server} {s : Kernel P}
    (h : StepCase build w p (.recv p fd r) sv s) (ha : sv.alive = true) :
    Effect (build p) p ((w.server p).requestP fd) (w.server p).selfLock w.kernel r
      (sv.requestP fd) sv.selfLock s := by
  cases h with
  | exit => cases ha
  | served _ heff _ _ => exact heff

/-- A session that the step does not touch: other messages are for other connections. -/
theorem Shows.frame {p : P} {fd : Nat} {k : CInt} (hs : Shows build w)
    (hw : WriteSession build w p fd k) (ms : Sent) (hsent : (w'.server p).sent = (w.server p).sent ++ ms)
    (hm : ∀ m ∈ ms, m.1 ≠ fd) (hfile : w'.kernel.file k = w.kernel.file k) :
    (w'.server p).LastShown fd (w'.kernel.file k).bookingState := by
  rw [hfile]
  exact (hs.shown p fd k hw).append hsent hm

theorem shows_accept {p : P} {fd : Nat} (hi : Inv build w) (hs : Shows build w)
    (h : w.step build (.accept p fd) = some w') : Shows build w' := by
  have hstep := h
  simp only [World.step] at h
  split at h
  · rename_i hc
    cases h
    have hreq : ∀ q j, ¬ (q = p ∧ j = fd) → ((w.setServer p ((w.server p).accept (build p) fd)).server
        q).requestP j = (w.server q).requestP j := by
      intro q j hne
      by_cases hq : q = p
      · subst hq
        have hj : j ≠ fd := fun hj => hne ⟨rfl, hj⟩
        simp [setServer_self, Server.accept, hj]
      · rw [setServer_of_ne hq]
    constructor
    · intro q j hconn
      by_cases hqj : q = p ∧ j = fd
      · obtain ⟨rfl, rfl⟩ := hqj
        simp [setServer_self, Server.accept, acceptRequest]
      · rw [hreq q j hqj] at hconn ⊢
        exact hs.conn q j hconn
    · intro q j k hw
      by_cases hqj : q = p ∧ j = fd
      · obtain ⟨rfl, rfl⟩ := hqj
        obtain ⟨hb, _, _, hbusy, _⟩ := hw
        simp [setServer_self, Server.accept, acceptRequest, hb, InSession] at hbusy
      · have hw' : WriteSession build w q j k := by
          refine ⟨hw.1, (session_congr ?_ (hreq q j hqj)).1 hw.2⟩
          by_cases hq : q = p
          · subst hq; simp [setServer_self, Server.accept]
          · rw [setServer_of_ne hq]
        have hfile := file_of_writeSession hi hw' hstep (by simp)
        by_cases hq : q = p
        · subst hq
          have hj : j ≠ fd := fun hj => hqj ⟨rfl, hj⟩
          refine hs.frame hw' (send fd promptMsg) ?_ ?_ hfile
          · simp [setServer_self, Server.accept]
          · intro m hm hmj
            rw [(mem_send hm).1] at hmj
            exact hj (Int.ofNat.inj hmj.symm)
        · refine hs.frame hw' [] ?_ (by simp) hfile
          rw [setServer_of_ne hq, List.append_nil]
  · cases h

/-- The session that a call of `handle_read` has just opened. -/
theorem lastShown_of_opens {p : P} {fd : Nat} {r : ReadResult} {k : CInt} {sv : Server}
    {s : Kernel P} {val : Int} {q : Request}
    (hidle : ((w.server p).requestP fd).waitForWrite = true) (hqw : q.waitForWrite = true)
    (hval : 0 ≤ val) (hreq : sv.requestP fd = (afterRead .writer val q).1)
    (hsent : sv.sent = (w.server p).sent ++ (afterRead .writer val q).2)
    (hconn : q.connFd = fd) (hsess : sv.Session .writer fd k)
    (heff : Effect .writer p ((w.server p).requestP fd) (w.server p).selfLock w.kernel r
      (sv.requestP fd) sv.selfLock s) : sv.LastShown fd (s.file k).bookingState := by
  obtain ⟨_, hopen, hbusy, hid⟩ := hsess
  rw [hreq] at hopen hbusy
  obtain ⟨hbuf, _, hms⟩ := afterRead_opens hqw hopen hval
  have hlist : sv.requestP fd = (afterRead .writer val q).1 → q.buf = listing (s.file k).bookingState := by
    intro _
    rw [← hbuf, ← hreq]
    rw [← hreq] at hopen hbusy
    generalize sv.requestP fd = q' at heff hopen hbusy hid
    generalize sv.selfLock = sl' at heff
    cases heff with
    | failed _ => simp [InSession, hidle] at hbusy
    | refused _ hcl => exact (hopen hcl.1).elim
    | lost _ _ hcl => exact (hopen hcl.1).elim
    | @opened _ k' _ _ _ _ _ hid' _ hl =>
      have hk : k' = k := by
        have e := congrArg (fun i => i - HEAD) (hid'.symm.trans hid)
        simpa [BitVec.add_comm HEAD] using e
      rw [← hk]; exact hl
    | released _ _ _ hcl _ => exact (hopen hcl.1).elim
    | booked _ _ _ hcl _ _ _ => exact (hopen hcl.1).elim
  refine ⟨(w.server p).sent, [], ?_, by simp⟩
  rw [hsent, hms, hconn, hlist hreq]

/-- A write session on the slot that was served: it was opened by this call, or `read` failed. -/
theorem shows_served {p : P} {fd : Nat} {r : ReadResult} {k : CInt} {val : Int} {q : Request}
    (hi : Inv build w) (hs : Shows build w) (h : w.step build (.recv p fd r) = some w')
    (hret : retAt build w (.recv p fd r) = some val) (hserve : (w.server p).canServe fd = true)
    (hreq : (w'.server p).requestP fd = (afterRead (build p) val q).1)
    (hsent : (w'.server p).sent = (w.server p).sent ++ (afterRead (build p) val q).2)
    (hq : q.connFd = ((w.server p).requestP fd).connFd)
    (hqw : q.waitForWrite = ((w.server p).requestP fd).waitForWrite)
    (hneg : val < 0 → q = (w.server p).requestP fd)
    (hcase : StepCase build w p (.recv p fd r) (w'.server p) w'.kernel)
    (hw : WriteSession build w' p fd k) :
    (w'.server p).LastShown fd (w'.kernel.file k).bookingState := by
  obtain ⟨hb, hsess⟩ := hw
  obtain ⟨hal, _, _, hopen⟩ := canServe_iff.1 hserve
  have hconn := hs.conn p fd hopen
  rw [hb] at hreq hsent
  by_cases hval : 0 ≤ val
  · cases hidle : ((w.server p).requestP fd).waitForWrite with
    | false =>
      have := afterRead_ends (hqw.trans hidle) hval
      exact (hsess.2.1 (hreq ▸ this)).elim
    | true =>
      have heff := hcase.effect hsess.1
      rw [hb] at heff
      exact lastShown_of_opens hidle (hqw.trans hidle) hval hreq hsent (hq.trans hconn) hsess heff
  · obtain rfl := hneg (by omega)
    have hsame : afterRead .writer val ((w.server p).requestP fd) = ((w.server p).requestP fd, []) := by
      simp only [afterRead, if_neg (by omega : ¬ val = 1), if_pos (by omega : val < 0)]
    rw [hsame] at hreq hsent
    have hacc : acceptedAt build w (.recv p fd r) = none := by
      unfold acceptedAt
      rw [hret, if_neg (by simp; omega)]
    have hfile : w'.kernel.file = w.kernel.file := by rw [file_acceptedAt hi h, hacc]
    have hw0 : WriteSession build w p fd k :=
      ⟨hb, (session_congr (hsess.1.trans hal.symm) hreq).1 hsess⟩
    exact hs.frame hw0 _ hsent (by simp) (by rw [hfile])

theorem shows_recv {p : P} {fd : Nat} {r : ReadResult} (hi : Inv build w) (hs : Shows build w)
    (h : w.step build (.recv p fd r) = some w') : Shows build w' := by
  have hstep := h
  obtain ⟨a, hcase, hother⟩ := step_cases hi h
  have hserve : (w.server p).canServe fd = true := by
    by_contra hn
    simp only [World.step, if_neg hn] at h
    cases h
  obtain ⟨hal, _, _, hopen⟩ := canServe_iff.1 hserve
  have hconn := hs.conn p fd hopen
  simp only [World.step, if_pos hserve] at h
  have hsame := (handleRead_ends (build p) r ((w.server p).requestP fd) (w.server p).selfLock).exec p
    (s := w.kernel)
  cases hx : w.handle build p fd r with
  | mk out s =>
    rw [hx] at h
    simp only [Option.some.injEq] at h
    change SamePhase _ (w.handle build p fd r).1 at hsame
    rw [hx] at hsame
    have hap : a = p := hcase.process
    subst hap
    have hrest : ∀ q, q ≠ a → ∀ j k, WriteSession build w' q j k →
        (w'.server q).LastShown j (w'.kernel.file k).bookingState := by
      intro q hq j k hw
      have hw0 : WriteSession build w q j k := by
        unfold WriteSession at hw ⊢
        rwa [hother q hq] at hw
      refine hs.frame hw0 [] (by rw [hother q hq, List.append_nil]) (by simp) ?_
      exact file_of_writeSession hi hw0 hstep (by rintro r' ⟨⟩; exact hq rfl)
    cases out with
    | exit =>
      have hsv : w'.server a = { w.server a with alive := false } := by
        rw [← h, setServer_self]; rfl
      constructor
      · intro q j hc
        by_cases hq : q = a
        · subst hq; rw [hsv] at hc ⊢; exact hs.conn q j hc
        · rw [hother q hq] at hc ⊢; exact hs.conn q j hc
      · intro q j k hw
        by_cases hq : q = a
        · subst hq
          have := hw.2.1
          rw [hsv] at this
          cases this
        · exact hrest q hq j k hw
    | ret val q0 sl =>
      obtain ⟨hq0, hqw, hneg⟩ := hsame
      have hfd : (w'.server a).requestP fd = (afterRead (build a) val q0).1 := by
        rw [← h, setServer_self]; simp [Server.finish]
      have hj : ∀ j, j ≠ fd → (w'.server a).requestP j = (w.server a).requestP j := by
        intro j hj; rw [← h, setServer_self]; simp [Server.finish, hj]
      have hsent : (w'.server a).sent = (w.server a).sent ++ (afterRead (build a) val q0).2 := by
        rw [← h, setServer_self]; simp [Server.finish]
      have hret : retAt build w (.recv a fd r) = some val := by simp [retAt, hx]
      have hconn' : ((afterRead (build a) val q0).1).connFd ≠ -1 →
          ((afterRead (build a) val q0).1).connFd = q0.connFd := fun hc =>
        (afterRead_connFd _ _ _).resolve_right hc
      constructor
      · intro q j hc
        by_cases hq : q = a
        · subst hq
          by_cases e : j = fd
          · subst e
            rw [hfd] at hc ⊢
            rw [hconn' hc, hq0, hconn]
          · rw [hj j e] at hc ⊢; exact hs.conn q j hc
        · rw [hother q hq] at hc ⊢; exact hs.conn q j hc
      · intro q j k hw
        by_cases hq : q = a
        · subst hq
          by_cases e : j = fd
          · subst e
            exact shows_served hi hs hstep hret hserve hfd hsent hq0 hqw hneg hcase hw
          · have hw0 : WriteSession build w q j k :=
              ⟨hw.1, (session_congr (by rw [hal, hw.2.1]) (hj j e)).1 hw.2⟩
            refine hs.frame hw0 _ hsent (fun m hm hmj => ?_)
              (file_of_writeSession hi hw0 hstep (by rintro r' ⟨⟩; exact e rfl))
            rw [mem_afterRead hm, hq0, hconn] at hmj
            exact e (Int.ofNat.inj hmj.symm)
        · exact hrest q hq j k hw

theorem shows_step {e : Event P} (hi : Inv build w) (hs : Shows build w)
    (h : w.step build e = some w') : Shows build w' := by
  cases e with
  | accept p fd => exact shows_accept hi hs h
  | recv p fd r => exact shows_recv hi hs h

end

/-! ## Runs -/

section

variable {P : Type} [DecidableEq P] [Fintype P] {build : P → Build} {w w' : World P}

/-- The accepted commands on record `k`, in the order of the run. -/
def acceptedOn (build : P → Build) (k : CInt) (tr : List (World P × Event P)) :
    List (Fin 3 → CInt) :=
  tr.filterMap fun x =>
    (acceptedAt build x.1 x.2).bind fun c => if c.1 = k then some c.2 else none

/-- The record with every command of the list added to its counts. -/
def Record.addAll (r : Record) (commands : List (Fin 3 → CInt)) : Record :=
  { r with bookingState := fun i => r.bookingState i + (commands.map fun nums => nums i).sum }

theorem acceptedOn_snoc {k : CInt} {tr : List (World P × Event P)} {e : Event P} :
    acceptedOn build k (tr ++ [(w, e)]) = acceptedOn build k tr ++
      ((acceptedAt build w e).bind fun c => if c.1 = k then some c.2 else none).toList := by
  unfold acceptedOn
  rw [List.filterMap_append]
  cases h : (acceptedAt build w e).bind fun c => if c.1 = k then some c.2 else none <;> simp [h]

theorem Record.addAll_snoc (r : Record) (commands : List (Fin 3 → CInt)) (nums : Fin 3 → CInt) :
    r.addAll (commands ++ [nums]) = { r.addAll commands with
      bookingState := fun i => (r.addAll commands).bookingState i + nums i } := by
  unfold Record.addAll
  simp [BitVec.add_assoc]

theorem file_run {w0 : World P} {tr : List (World P × Event P)} (h0 : w0.Init)
    (h : Run (World.step build) w0 tr w) (k : CInt) :
    w.kernel.file k = (w0.kernel.file k).addAll (acceptedOn build k tr) := by
  induction h with
  | nil => simp [acceptedOn, Record.addAll]
  | @snoc s1 s2 tr e hr hs ih =>
    rw [acceptedOn_snoc, file_acceptedAt (reachable_inv h0 ⟨_, hr⟩) hs]
    cases ha : acceptedAt build s1 e with
    | none => simpa using ih
    | some c =>
      by_cases hk : k = c.1
      · subst hk
        simp only [Option.bind_some, if_true, Option.toList_some, Record.addAll_snoc, ← ih]
      · simp only [if_neg hk, Option.bind_some, if_neg (Ne.symm hk), Option.toList_none,
          List.append_nil]
        exact ih

theorem reachable_shows {w0 : World P} (h0 : w0.Init) (h : Reachable (World.step build) w0 w) :
    Shows build w := by
  have : Inv build w ∧ Shows build w :=
    h.invariant (I := fun w => Inv build w ∧ Shows build w)
      (fun _ _ _ hi hs => ⟨hi.1.step hs, shows_step hi.1 hi.2 hs⟩) ⟨h0.inv, h0.shows⟩
  exact this.2

/-- What the sessions of the run `tr` from `w0` to `w` owe each other. -/
structure Isolated (build : P → Build) (w0 : World P) (tr : List (World P × Event P))
    (w : World P) : Prop where
  /-- The client of a write session was shown the counts that the record has now. -/
  shown : ∀ p fd k, WriteSession build w p fd k →
    (w.server p).LastShown fd (w.kernel.file k).bookingState
  /-- No other connection changes the record. -/
  quiet : ∀ p fd k, WriteSession build w p fd k → ∀ e w', w.step build e = some w' →
    (∀ r, e ≠ .recv p fd r) → w'.kernel.file k = w.kernel.file k
  /-- A command comes from a write session on its record and is checked against the record. -/
  checked : ∀ e w' k nums, w.step build e = some w' → commandAt build w e = some (k, nums) →
    (∃ p fd r, e = .recv p fd r ∧ WriteSession build w p fd k) ∧
      retAt build w e = some (verdict (w.kernel.file k).bookingState nums)
  single : ∀ p fd q fd' k, WriteSession build w p fd k → WriteSession build w q fd' k →
    p = q ∧ fd = fd'
  /-- While a read session is open there is no write session on the record, and none opens. -/
  readers : ∀ p fd k, ReadSession build w p fd k → ∀ q fd', ¬ WriteSession build w q fd' k ∧
    ∀ e w', w.step build e = some w' → ¬ WriteSession build w' q fd' k
  /-- The record is the initial one with the accepted commands added. -/
  sum : ∀ k, w.kernel.file k = (w0.kernel.file k).addAll (acceptedOn build k tr)
  /-- What is not an accepted command changes no record. -/
  rejected : ∀ e w', w.step build e = some w' → acceptedAt build w e = none →
    w'.kernel.file = w.kernel.file

/-- Every run of any number of read and write servers keeps its sessions apart and loses no
accepted command. -/
theorem session_isolation {w0 : World P} {tr : List (World P × Event P)} (h0 : w0.Init)
    (h : Run (World.step build) w0 tr w) : Isolated build w0 tr w := by
  have hr : Reachable (World.step build) w0 w := ⟨tr, h⟩
  have hi := reachable_inv h0 hr
  constructor
  · exact (reachable_shows h0 hr).shown
  · intro p fd k hs e w' hw' he
    exact file_of_writeSession hi hs hw' he
  · intro e w' k nums hw' hc
    exact ⟨commandAt_session hw' hc, retAt_command hc⟩
  · intro p fd q fd' k hs hs'
    exact writeSession_unique hi hs hs'
  · intro p fd k hs q fd'
    exact ⟨not_read_and_write hi hs, fun e w' hw' => no_write_opens hi hs hw' q fd'⟩
  · exact file_run h0 h
  · intro e w' hw' ha
    rw [file_acceptedAt hi hw', ha]

end

theorem session_isolation_booked :
    Isolated (fun _ => .writer) (freshWorld (Fin 1))
      (traceOf (World.step fun _ => .writer) (freshWorld (Fin 1))
        (visit 0 5 ++ [.recv 0 5 (.data "1 2 3\r\n".toList)]))
      ((runEvents (World.step fun _ => .writer) (freshWorld (Fin 1))
        (visit 0 5 ++ [.recv 0 5 (.data "1 2 3\r\n".toList)])).getD (freshWorld (Fin 1))) :=
  session_isolation (freshWorld_init _) (run_traceOf rfl)


end SysProg.Booking
