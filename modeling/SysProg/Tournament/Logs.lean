import SysProg.Recorded
import SysProg.Tournament.HandOver

/-!
# SysProg.Tournament.Logs

The log files of `battle.c` and `player.c`.

* `LogLine`: what `myread` and `mywrite` put into a log; `LogLine.text`: as they print it.
* `grow`: what a step of a process adds to what it has to log.
* `Logged.step`: the processes and their log files. A line is written before the status is sent, or
  after it has been received, and other processes go on in between.
* `Ledger`: what each process has written, and what it will have written.
* `logs_agree`: in all runs the same is written to each file, also to those that a player and its
  agent share.

The lines of a battle are counted when they are in the stream; `exit` flushes it.
-/

namespace SysProg.Tournament

/-! ## Lines -/

inductive LogFile where
  /-- `log_battle%c.txt` -/
  | battle (id : Battle)
  /-- `log_player%d.txt` -/
  | player (realPlayerId : Int)
deriving DecidableEq, Repr

inductive Dir where
  | sent
  | received
deriving DecidableEq, Repr

def Dir.word : Dir → Text
  | .sent => "to ".toList
  | .received => "from ".toList

structure LogLine where
  id : Proc
  dir : Dir
  chan : Chan
  status : Status
deriving DecidableEq, Repr

/-- `%d` -/
def showD (n : Int) : Text :=
  if n < 0 then '-' :: Nat.toDigits 10 (-n).toNat else Nat.toDigits 10 n.toNat

def parentTable : Battle → Char
  | .A => '\x00' | .B => 'A' | .C => 'A' | .D => 'B' | .E => 'B' | .F => 'C' | .G => 'D'
  | .H => 'D' | .I => 'E' | .J => 'E' | .K => 'F' | .L => 'F' | .M => 'K' | .N => 'L'

def whichTarget (id : PlayerId) : Char :=
  match id with
  | 0 | 1 => 'G'
  | 2 | 3 => 'H'
  | 4 | 5 => 'I'
  | 6 | 7 => 'J'
  | 8 | 9 => 'M'
  | 10 => 'K'
  | 11 | 12 => 'N'
  | 13 => 'L'
  | 14 => 'C'

def Proc.name : Proc → Text
  | .battle b => [b.letter]
  | .player k => showD k.val

section

variable (pid : Proc → Int)

/-- `myppid`, which the parent passes on; the root is started as `./battle A 0`. -/
def ppid (p : Proc) : Int := if p = .battle .A then 0 else pid (parent p)

def Proc.target : Proc → Char
  | .battle b => parentTable b
  | .player k => whichTarget k

/-- Whom the line names: the parent, a child, the agent or the real player. -/
def LogLine.peer (x : LogLine) : Text :=
  match x.chan with
  | .stdin p | .stdout p =>
    if p = x.id then p.target :: ',' :: showD (ppid pid p) else p.name ++ ',' :: showD (pid p)
  | .fifo k =>
    match x.dir with
    | .sent => showD k.val
    | .received => showD x.status.realPlayerId

def LogLine.text (x : LogLine) : Text :=
  x.id.name ++ ',' :: showD (pid x.id) ++
    (match x.chan with
    | .fifo _ => " fifo ".toList
    | _ => " pipe ".toList) ++
    x.dir.word ++ x.peer pid ++ ' ' :: showD x.status.realPlayerId ++ ',' :: showD x.status.HP ++
    (match x.chan with
    | .fifo _ => []
    | _ => [',', x.status.currentBattleId, ','] ++ showD x.status.battleEndedFlag) ++ ['\n']

end

/-! ## Writing them -/

/-- `log_fd`, and the lines that are still to be written. -/
structure Log where
  file : Option LogFile
  owed : List LogLine

def Log.closed : Log := ⟨none, []⟩

/-- `mywrite` logs before it writes. -/
def announced {L : Type} (p : Proc) : Kahn.Action Chan Flag Status L → List LogLine
  | .send c v _ => [⟨p, .sent, c, v⟩]
  | _ => []

/-- `myread` logs what it has read. -/
def noted {L : Type} (p : Proc) : Kahn.Action Chan Flag Status L → Option Status → List LogLine
  | .recv c _, some v => [⟨p, .received, c, v⟩]
  | _, _ => []

/-- Battles and real players open their log when they start, an agent when it has read who it is. -/
def opens : (p : Proc) → Loc p → Option Status → Option LogFile → Option LogFile
  | .battle id, l, _, f =>
    match l.pc with
    | .start => some (.battle id)
    | _ => f
  | .player id, l, v, f =>
    match l.pc, v with
    | .start, _ => if id ≤ 7 then some (.player id.val) else f
    | .readFifo, some m => some (.player m.realPlayerId)
    | _, _ => f

section

variable [Arith] (file : List Line)

/-- After a step from `l` to `l'` that has received `v`. -/
def grow (p : Proc) (l : Loc p) (v : Option Status) (l' : Loc p) (g : Log) : Log where
  file := opens p l v g.file
  owed := g.owed ++ noted p (prog file p l) v ++ announced p (prog file p l')

structure Logged where
  net : State
  log : Proc → Log
  files : LogFile → List LogLine

namespace Logged

def start : Logged := ⟨Tournament.start, fun _ => .closed, fun _ => []⟩

inductive Event where
  | act (p : Proc)
  /-- A line is written. -/
  | note (p : Proc)
  | retry (p : Proc)
deriving DecidableEq, Repr

/-- A write to a file that is not open is lost. -/
def append (files : LogFile → List LogLine) (f : Option LogFile) (x : LogLine) :
    LogFile → List LogLine :=
  match f with
  | some f => Function.update files f (files f ++ [x])
  | none => files

def step (s : Logged) : Event → Option Logged
  | .act p =>
    if (s.log p).owed = [] then
      (Kahn.step (prog file) s.net p).map fun n =>
        { s with net := n, log := Kahn.recorded (grow file) (prog file) s.net n s.log p }
    else none
  | .note p =>
    match (s.log p).owed with
    | [] => none
    | x :: xs =>
      some { s with log := Function.update s.log p { s.log p with owed := xs }
                    files := append s.files (s.log p).file x }
  | .retry p => if (s.log p).owed = [] ∧ retries s.net p then some s else none

def text (pid : Proc → Int) (s : Logged) (f : LogFile) : Text := (s.files f).flatMap (LogLine.text pid)

/-- All processes have exited and written their logs. -/
def finished (s : Logged) : Prop := ∀ p, exited s.net p = true ∧ (s.log p).owed = []

end Logged

end

section

variable [Arith] {file : List Line} {hg : GoodFile file} {s s' : State} {b : Battle} {p q : Proc}
  {k r : PlayerId} {v : Status} {f : LogFile} {g : Log} {m : Proc → Log}

/-! ## One step -/

/-- Before the log is opened. -/
def dormant : (p : Proc) → Loc p → Bool
  | .battle _, l => l.pc = .start
  | .player _, l =>
    match l.pc with
    | .start | .mkfifo | .openRead | .opening | .readFifo => true
    | _ => false

/-- The file that `p` logs to. -/
def logOf (file : List Line) : Proc → LogFile
  | .battle b => .battle b
  | .player k => .player (real file k).val

/-- What is known of the log of `p`, which stands at `l`. -/
def Opened (file : List Line) (p : Proc) (l : Loc p) (g : Log) : Prop :=
  (dormant p l = true ∧ g = .closed) ∨ (dormant p l = false ∧ g.file = some (logOf file p))

theorem battle_awake (b : Battle) (l : BattleLoc) :
    (battleMain b l).Next fun l' => dormant (.battle b) l' = false := by
  obtain ⟨pc, st, w⟩ := l
  cases pc with
  | start => rfl
  | fork i => cases i <;> rfl
  | read i =>
    cases i with
    | false => exact fun v => rfl
    | true => exact fun v => rfl
  | write i =>
    cases i with
    | false => rfl
    | true =>
      show dormant (.battle b) (BattleLoc.judge _) = false
      rw [BattleLoc.judge]
      split <;> rfl
  | reread i =>
    cases i with
    | false => exact fun v => rfl
    | true => exact fun v => rfl
  | wait =>
    by_cases hb : b = .A
    · subst hb
      rfl
    · simp [battleMain, Kahn.Action.Next, dormant, hb]
  | relayRead => exact fun v => rfl
  | relayUp => rfl
  | relayDown => exact fun v => rfl
  | relayWrite =>
    show dormant (.battle b) (BattleLoc.relayed _) = false
    rw [BattleLoc.relayed]
    split <;> rfl
  | waitLast =>
    by_cases hb : b = .A
    · subst hb
      rfl
    · simp [battleMain, Kahn.Action.Next, dormant, hb]
  | report => rfl
  | exit => rfl
  | done => trivial

omit [Arith] in
theorem leave_awake (l : PlayerLoc) (k : PlayerId) : dormant (.player k) (l.leave k) = false := by
  rw [PlayerLoc.leave]
  split
  · split <;> rfl
  · rfl

theorem received_awake (l : PlayerLoc) (k : PlayerId) : dormant (.player k) (l.received k) = false := by
  rw [PlayerLoc.received]
  split
  · split
    · exact leave_awake l k
    · split <;> rfl
  · rfl

theorem player_awake (k : PlayerId) {l : PlayerLoc} (h : dormant (.player k) l = false) :
    (playerMain file k l).Next fun l' => dormant (.player k) l' = false := by
  obtain ⟨pc, m, o⟩ := l
  cases pc with
  | start => cases h
  | mkfifo => cases h
  | openRead => cases h
  | opening => cases h
  | readFifo => cases h
  | read => exact fun v => received_awake _ k
  | done => trivial
  | _ => rfl

omit [Arith] in
theorem opens_awake {l : Loc p} (h : dormant p l = false) (v : Option Status) (f : Option LogFile) :
    opens p l v f = f := by
  cases p with
  | battle b =>
    obtain ⟨pc, st, w⟩ := l
    cases pc with
    | start => cases h
    | _ => rfl
  | player k =>
    obtain ⟨pc, m, o⟩ := l
    cases pc with
    | start => cases h
    | readFifo => cases h
    | _ => cases v <;> rfl

theorem battle_opened {l l' : BattleLoc} (hd : dormant (.battle b) l = true) (v : Option Status) :
    (grow file (.battle b) l v l' .closed).file = some (logOf file (.battle b)) := by
  have hpc : l.pc = .start := of_decide_eq_true hd
  show opens (.battle b) l v none = _
  rw [opens, hpc]
  rfl

/-- What comes out of the FIFO says who the agent plays for. -/
theorem player_opened {l l' : PlayerLoc} (hl : Kahn.ready s (playerMain file k l) = some l')
    (hd : dormant (.player k) l = true)
    (hv : ∀ v, (s.queue (.fifo k)).head? = some v → v.realPlayerId = (real file k).val) :
    Opened file (.player k) l'
      (grow file (.player k) l (Kahn.heard s (playerMain file k l)) l' .closed) := by
  obtain ⟨pc, m, o⟩ := l
  cases pc with
  | start =>
    simp only [playerMain, Kahn.ready] at hl
    split at hl
    · cases hl
      by_cases hk : k ≤ 7
      · refine .inr ⟨by rw [if_pos hk]; rfl, ?_⟩
        show (if k ≤ 7 then some (LogFile.player k.val) else none) = _
        rw [if_pos hk, logOf, real_first hk]
      · refine .inl ⟨by rw [if_neg hk]; rfl, ?_⟩
        simp [grow, opens, hk, prog, playerMain, noted, announced, Log.closed]
    · cases hl
  | mkfifo =>
    cases hl
    exact .inl ⟨rfl, rfl⟩
  | openRead =>
    cases hl
    exact .inl ⟨rfl, rfl⟩
  | opening =>
    simp only [playerMain, Kahn.ready] at hl
    split at hl
    · cases hl
      exact .inl ⟨rfl, rfl⟩
    · cases hl
  | readFifo =>
    obtain ⟨v, hq, rfl⟩ := Option.map_eq_some_iff.1 hl
    refine .inr ⟨rfl, ?_⟩
    show opens (.player k) _ ((s.queue (.fifo k)).head?) _ = _
    rw [hq, logOf, ← hv v hq]
    rfl
  | _ => cases hd

theorem fifo_real (h : (script file hg).Holds s) (hv : (s.queue (.fifo k)).head? = some v) :
    v.realPlayerId = (real file k).val := by
  obtain ⟨-, -, rfl⟩ := h.msg (Kahn.head_get hv)
  have hp := (person_entrant hg (.player k)).id
  rw [seat_player] at hp
  exact hp

theorem opened_step (h : (script file hg).Holds s) (hs : Kahn.step (prog file) s p = some s')
    (ho : Opened file p (s.loc p) g) :
    Opened file p (s'.loc p)
      (grow file p (s.loc p) (Kahn.heard s (prog file p (s.loc p))) (s'.loc p) g) := by
  have hl := Kahn.step_loc_self hs
  rcases ho with ⟨hd, rfl⟩ | ⟨hd, hf⟩
  · cases p with
    | battle b =>
      exact .inr ⟨(battle_awake b _).of_ready hl, battle_opened hd _⟩
    | player k => exact player_opened hl hd fun v => fifo_real h
  · refine .inr ⟨?_, ?_⟩
    · cases p with
      | battle b => exact (battle_awake b _).of_ready hl
      | player k => exact (player_awake k hd).of_ready hl
    · show opens p (s.loc p) _ g.file = _
      rw [opens_awake hd, hf]

/-! ## Who has handed over -/

/-- After the FIFO has been written to. -/
def gone (l : PlayerLoc) : Bool := l.pc = .exit || l.pc = .done

theorem gone_next {l : PlayerLoc} (h : gone l = true) :
    (playerMain file k l).Next fun l' => gone l' = true := by
  obtain ⟨pc, m, o⟩ := l
  cases pc with
  | exit => rfl
  | done => trivial
  | _ => cases h

theorem sends_fifo {l l' : PlayerLoc} (h : playerMain file r l = .send (.fifo k) v l') :
    gone l' = true := by
  obtain ⟨pc, m, o⟩ := l
  cases pc with
  | writeFifo a =>
    cases h
    rfl
  | _ => cases h

/-- Into the FIFO of an agent writes the real player that it plays for. -/
theorem fifo_given (h : (script file hg).Holds s) (hs : Kahn.step (prog file) s p = some s')
    (hb : feeder k = some b) (hne : Kahn.sent s' (.fifo k) ≠ Kahn.sent s (.fifo k)) :
    p = .player (real file k) ∧ gone (playerLoc s' (real file k)) = true := by
  rcases Kahn.sent_cases hs (.fifo k) with ⟨he, -⟩ | ⟨v, l, hl, -, hl'⟩
  · exact absurd he hne
  · have ho : Kahn.Owns (snd file) rcv p (prog file p (s.loc p)) := (script file hg).owns (h.part p)
    rw [hl] at ho
    have hp : p = .player (real file k) := by
      rw [real_agent hb, ← show snd file (.fifo k) = p from ho, snd, hb]
    subst hp
    refine ⟨rfl, ?_⟩
    rw [playerLoc, hl']
    exact sends_fifo hl

/-- What holds of the processes and of all that they have had to log. -/
structure Recorded (file : List Line) (hg : GoodFile file) (s : State) (m : Proc → Log) : Prop where
  holds : (script file hg).Holds s
  opened : ∀ p, Opened file p (s.loc p) (m p)
  /-- An agent logs nothing before it has read who it is. -/
  fed : ∀ k b, feeder k = some b → s.taken (.fifo k) = [] → dormant (.player k) (s.loc (.player k)) = true
  given : ∀ k b, feeder k = some b → Kahn.sent s (.fifo k) ≠ [] → gone (playerLoc s (real file k)) = true

theorem fed_step (hs : Kahn.step (prog file) s p = some s')
    (h : s.taken (.fifo k) = [] → dormant (.player k) (s.loc (.player k)) = true) (hb : feeder k = some b)
    (ht : s'.taken (.fifo k) = []) : dormant (.player k) (s'.loc (.player k)) = true := by
  rcases Kahn.taken_cases hs (.fifo k) with ⟨he, hno⟩ | ⟨l, v, -, -, he, -⟩
  · have hd := h (he.symm.trans ht)
    by_cases hp : p = .player k
    · subst hp
      have hl := Kahn.step_loc_self hs
      generalize s.loc (.player k) = l at *
      generalize s'.loc (.player k) = l' at *
      have hl : Kahn.ready s (playerMain file k l) = some l' := hl
      obtain ⟨pc, m, o⟩ := l
      cases pc with
      | start =>
        have hk : ¬ k ≤ 7 := by
          intro hk
          rw [feeder_none.2 hk] at hb
          cases hb
        have hN : (playerMain file k ⟨.start, m, o⟩).Next fun l' => dormant (.player k) l' = true := by
          show dormant (.player k) (ite _ _ _) = true
          rw [if_neg hk]
          rfl
        exact hN.of_ready hl
      | mkfifo =>
        cases hl
        rfl
      | openRead =>
        cases hl
        rfl
      | opening =>
        have hN : (playerMain file k ⟨.opening, m, o⟩).Next fun l' => dormant (.player k) l' = true := rfl
        exact hN.of_ready hl
      | readFifo => exact absurd rfl (hno _)
      | _ => cases hd
    · rw [Kahn.step_loc_of_ne hs (Ne.symm hp)]
      exact hd
  · rw [he] at ht
    exact absurd ht (by simp)

theorem recorded_step (h : Recorded file hg s m) (hs : Kahn.step (prog file) s p = some s') :
    Recorded file hg s' (Kahn.recorded (grow file) (prog file) s s' m p) where
  holds := h.holds.step hs
  opened q := by
    by_cases e : q = p
    · subst e
      rw [Kahn.recorded, Function.update_self]
      exact opened_step h.holds hs (h.opened q)
    · rw [Kahn.recorded, Function.update_of_ne e, Kahn.step_loc_of_ne hs e]
      exact h.opened q
  fed k b hb ht := fed_step hs (h.fed k b hb) hb ht
  given k b hb hne := by
    by_cases he : Kahn.sent s' (.fifo k) = Kahn.sent s (.fifo k)
    · exact Kahn.Next.step (p := .player (real file k)) (I := fun l => gone l = true)
        (fun l hl => gone_next hl) hs (h.given k b hb (he ▸ hne))
    · exact (fifo_given h.holds hs hb he).2

/-! ## Who writes to a file -/

/-- A player before the agent it hands over to. -/
def writers (file : List Line) : LogFile → List Proc
  | .battle b => [.battle b]
  | .player n => ((List.finRange 15).filter fun k => ((real file k).val : Int) = n).map .player

theorem mem_writers : p ∈ writers file f ↔ logOf file p = f := by
  cases f with
  | battle b =>
    cases p with
    | battle b' => simp [writers, logOf]
    | player k => simp [writers, logOf]
  | player n =>
    cases p with
    | battle b' => simp [writers, logOf]
    | player k => simp [writers, logOf]

/-- `q` is the agent that plays on for `p`. -/
def Gives (file : List Line) (p q : Proc) : Prop :=
  ∃ k b, feeder k = some b ∧ p = .player (real file k) ∧ q = .player k

theorem Gives.ne (h : Gives file p q) : p ≠ q := by
  obtain ⟨k, b, hb, rfl, rfl⟩ := h
  intro e
  have hk : real file k = k := Proc.player.inj e
  have := feeder_none.2 (hk ▸ real_le k)
  rw [hb] at this
  cases this

theorem gives_of_lt {k q : PlayerId} (hr : (real file k).val = (real file q).val) (hlt : k < q) :
    Gives file (.player k) (.player q) := by
  have hr : real file k = real file q := Fin.ext hr
  cases hq : feeder q with
  | none =>
    have hq7 := feeder_none.1 hq
    have hk7 : k ≤ 7 := le_trans (le_of_lt hlt) hq7
    rw [real_first hk7, real_first hq7] at hr
    exact absurd hr (ne_of_lt hlt)
  | some b =>
    cases hk : feeder k with
    | some b' => exact absurd (real_inj hk hq hr) (ne_of_lt hlt)
    | none =>
      refine ⟨q, b, hq, ?_, rfl⟩
      rw [← hr, real_first (feeder_none.1 hk)]

theorem writers_pairwise (file : List Line) (f : LogFile) : (writers file f).Pairwise (Gives file) := by
  cases f with
  | battle b => exact List.pairwise_singleton _ _
  | player n =>
    rw [writers, List.pairwise_map]
    refine ((List.pairwise_lt_finRange 15).filter _).imp_of_mem ?_
    intro k q hk hq hlt
    have hk : ((real file k).val : Int) = n := of_decide_eq_true (List.mem_filter.1 hk).2
    have hq : ((real file q).val : Int) = n := of_decide_eq_true (List.mem_filter.1 hq).2
    exact gives_of_lt (by omega) hlt

/-! ## Every run -/

abbrev recorder (file : List Line) := Kahn.recording (prog file) (grow file)

/-- `m`: all that the processes have had to log; `w`: what of it has been written. -/
structure Ledger (file : List Line) (hg : GoodFile file) (s : Logged) (m : Proc → Log)
    (w : Proc → List LogLine) : Prop where
  run : Reachable (Kahn.step (recorder file)) (start.along fun _ => .closed) (s.net.along m)
  recorded : Recorded file hg s.net m
  fd : ∀ p, (s.log p).file = (m p).file
  split : ∀ p, (m p).owed = w p ++ (s.log p).owed
  merged : ∀ f, s.files f = (writers file f).flatMap w
  /-- Who has handed over has written all its lines. -/
  settled : ∀ k b, feeder k = some b → Kahn.sent s.net (.fifo k) ≠ [] →
    (s.log (.player (real file k))).owed = []

section

variable {s s' : Logged} {w : Proc → List LogLine} {x : LogLine} {xs : List LogLine}

theorem Ledger.later (h : Ledger file hg s m w) (hp : Gives file p q) (hq : (m q).owed ≠ []) :
    (s.log p).owed = [] ∧ ∃ r, p = .player r ∧ gone (playerLoc s.net r) = true := by
  obtain ⟨k, b, hb, rfl, rfl⟩ := hp
  have ht : s.net.taken (.fifo k) ≠ [] := by
    intro ht
    rcases h.recorded.opened (.player k) with ⟨-, hc⟩ | ⟨hd, -⟩
    · rw [hc] at hq
      exact hq rfl
    · rw [h.recorded.fed k b hb ht] at hd
      cases hd
  have hs : Kahn.sent s.net (.fifo k) ≠ [] := by
    intro hs
    exact ht (List.append_eq_nil_iff.1 hs).1
  exact ⟨h.settled k b hb hs, _, rfl, h.recorded.given k b hb hs⟩

theorem Ledger.nothing (h : Ledger file hg s m w) (hp : Gives file p q)
    (ho : (s.log p).owed ≠ []) : w q = [] := by
  by_contra hw
  refine ho (h.later hp ?_).1
  rw [h.split q]
  simp [hw]

theorem owed_gone {l : PlayerLoc} (h : gone l = true) (v : Option Status) :
    noted (.player k) (playerMain file k l) v = [] ∧
      announced (.player k) (playerMain file k l) = [] := by
  obtain ⟨pc, m, o⟩ := l
  cases pc with
  | exit => exact ⟨rfl, rfl⟩
  | done => exact ⟨rfl, rfl⟩
  | _ => cases h

theorem settled_act {n : State} (h : Ledger file hg s m w) (hs : Kahn.step (prog file) s.net p = some n)
    (ho : (s.log p).owed = []) (hb : feeder k = some b) (hne : Kahn.sent n (.fifo k) ≠ []) :
    (Kahn.recorded (grow file) (prog file) s.net n s.log p (.player (real file k))).owed = [] := by
  by_cases hp : p = .player (real file k)
  · subst hp
    rw [Kahn.recorded, Function.update_self, grow, ho]
    have hgone := (recorded_step h.recorded hs).given k b hb hne
    have h₁ : noted (.player (real file k)) (prog file (.player (real file k))
        (s.net.loc (.player (real file k)))) (Kahn.heard s.net (prog file (.player (real file k))
          (s.net.loc (.player (real file k))))) = [] := by
      rcases Kahn.sent_cases hs (.fifo k) with ⟨he, -⟩ | ⟨v, l, hl, -, -⟩
      · exact (owed_gone (h.recorded.given k b hb (he ▸ hne)) _).1
      · rw [hl]
        rfl
    rw [h₁]
    exact (owed_gone hgone none).2
  · rw [Kahn.recorded, Function.update_of_ne (Ne.symm hp)]
    refine h.settled k b hb fun he => hne ?_
    by_contra hne'
    exact hp (fifo_given h.recorded.holds hs hb (by rw [he]; exact hne')).1

theorem Ledger.act {n : State} (h : Ledger file hg s m w)
    (hs : Kahn.step (prog file) s.net p = some n) (ho : (s.log p).owed = []) :
    Ledger file hg ⟨n, Kahn.recorded (grow file) (prog file) s.net n s.log p, s.files⟩
      (Kahn.recorded (grow file) (prog file) s.net n m p) w where
  run := h.run.tail (Kahn.step_recording_of hs m)
  recorded := recorded_step h.recorded hs
  fd q := by
    by_cases e : q = p
    · subst e
      simp only [Kahn.recorded, Function.update_self, grow, h.fd q]
    · simp only [Kahn.recorded, Function.update_of_ne e]
      exact h.fd q
  split q := by
    by_cases e : q = p
    · subst e
      simp only [Kahn.recorded, Function.update_self, grow, h.split q, ho, List.append_nil,
        List.nil_append, List.append_assoc]
    · simp only [Kahn.recorded, Function.update_of_ne e]
      exact h.split q
  merged := h.merged
  settled k b hb hne := settled_act h hs ho hb hne

theorem Ledger.opened_of_owed (h : Ledger file hg s m w) (ho : (s.log p).owed ≠ []) :
    (s.log p).file = some (logOf file p) := by
  rw [h.fd p]
  rcases h.recorded.opened p with ⟨-, hc⟩ | ⟨-, hf⟩
  · have hsplit := h.split p
    rw [hc] at hsplit
    have hsplit : [] = w p ++ (s.log p).owed := hsplit
    exact absurd (List.append_eq_nil_iff.1 hsplit.symm).2 ho
  · exact hf

theorem Ledger.note (h : Ledger file hg s m w) (ho : (s.log p).owed = x :: xs) :
    Ledger file hg ⟨s.net, Function.update s.log p { s.log p with owed := xs },
        Logged.append s.files (s.log p).file x⟩ m (Function.update w p (w p ++ [x])) where
  run := h.run
  recorded := h.recorded
  fd q := by
    by_cases e : q = p
    · subst e
      simp only [Function.update_self, h.fd q]
    · simp only [Function.update_of_ne e]
      exact h.fd q
  split q := by
    by_cases e : q = p
    · subst e
      simp only [Function.update_self, h.split q, ho, List.append_assoc, List.singleton_append]
    · simp only [Function.update_of_ne e]
      exact h.split q
  merged f := by
    have hne : (s.log p).owed ≠ [] := by simp [ho]
    rw [h.opened_of_owed hne]
    show Function.update s.files (logOf file p) (s.files (logOf file p) ++ [x]) f = _
    by_cases e : f = logOf file p
    · subst e
      rw [Function.update_self, h.merged]
      exact (Kahn.flatMap_update (writers_pairwise file _) (fun _ _ => Gives.ne) (mem_writers.2 rfl)
        fun q hq => h.nothing hq hne).symm
    · rw [Function.update_of_ne e, h.merged]
      refine (Kahn.flatMap_update_of_notMem fun hp => e ?_).symm
      exact (mem_writers.1 hp).symm
  settled k b hb hne := by
    have hset := h.settled k b hb hne
    by_cases e : .player (real file k) = p
    · subst e
      rw [ho] at hset
      cases hset
    · simp only [Function.update_of_ne e]
      exact hset

theorem ledger_start (hg : GoodFile file) : Ledger file hg Logged.start (fun _ => .closed) fun _ => [] where
  run := .refl
  recorded :=
    { holds := start_holds hg
      opened := fun p => by
        cases p with
        | battle b => exact .inl ⟨rfl, rfl⟩
        | player k => exact .inl ⟨rfl, rfl⟩
      fed := fun k b hb ht => rfl
      given := fun k b hb hne => absurd rfl hne }
  fd p := rfl
  split p := rfl
  merged f := (List.flatMap_eq_nil_iff.2 fun _ _ => rfl).symm
  settled k b hb hne := rfl

theorem ledger_reachable (hg : GoodFile file) (hr : Reachable (Logged.step file) Logged.start s) :
    ∃ m w, Ledger file hg s m w := by
  refine Reachable.invariant (I := fun s => ∃ m w, Ledger file hg s m w) ?_ hr
    ⟨_, _, ledger_start hg⟩
  rintro s e s' ⟨m, w, h⟩ hs
  cases e with
  | act p =>
    simp only [Logged.step] at hs
    split at hs
    · rename_i ho
      obtain ⟨n, hn, rfl⟩ := Option.map_eq_some_iff.1 hs
      exact ⟨_, _, h.act hn ho⟩
    · cases hs
  | note p =>
    simp only [Logged.step] at hs
    split at hs
    · cases hs
    · rename_i x xs ho
      cases hs
      exact ⟨_, _, h.note ho⟩
  | retry p =>
    simp only [Logged.step] at hs
    split at hs
    · cases hs
      exact ⟨m, w, h⟩
    · cases hs

/-! ## The complete run -/

variable {t : State} {final : Proc → Log} {n : Nat}

theorem grow_owed {l l' : Loc p} {u : Option Status} : ∃ ys, (grow file p l u l' g).owed = g.owed ++ ys :=
  ⟨_, List.append_assoc ..⟩

theorem record_grows {s : State}
    (h : Reachable (Kahn.step (recorder file)) (s.along m) (t.along final)) (p : Proc) :
    (m p).owed <+: (final p).owed := by
  refine Kahn.Next.reachable (p := p) (I := fun x => (m p).owed <+: x.2.owed) (fun x hx => ?_) h
    (List.prefix_refl _)
  refine Kahn.next_recording (prog file) (grow file) (Kahn.Action.Next.of_forall fun l v => ?_)
  have hgrow : ∃ ys, (grow file p x.1 v l x.2).owed = x.2.owed ++ ys := grow_owed
  obtain ⟨ys, hy⟩ := hgrow
  rw [hy]
  exact hx.trans (List.prefix_append _ _)

/-- Who is gone logs nothing more. -/
theorem record_gone {s : State}
    (h : Reachable (Kahn.step (recorder file)) (s.along m) (t.along final))
    (hk : gone (playerLoc s k) = true) : (final (.player k)).owed = (m (.player k)).owed := by
  have hI : ∀ x : PlayerLoc × Log, (gone x.1 = true ∧ x.2.owed = (m (.player k)).owed) →
      (recorder file (.player k) x).Next fun x => gone x.1 = true ∧ x.2.owed = (m (.player k)).owed := by
    intro x hx
    refine Kahn.next_recording (prog file) (grow file) ((gone_next hx.1).mono fun l hl v => ⟨hl, ?_⟩)
    have h₁ : noted (.player k) (playerMain file k x.1) v = [] := (owed_gone hx.1 v).1
    have h₂ : announced (.player k) (playerMain file k l) = [] := (owed_gone hl none).2
    show x.2.owed ++ noted (.player k) (playerMain file k x.1) v ++
      announced (.player k) (playerMain file k l) = _
    rw [h₁, h₂, List.append_nil, List.append_nil, hx.2]
  have h0 : gone (playerLoc s k) = true ∧ (m (.player k)).owed = (m (.player k)).owed := ⟨hk, rfl⟩
  exact (Kahn.Next.reachable (p := Proc.player k) hI h h0).2

theorem files_grow (h : Ledger file hg s m w)
    (ht : Reachable (Kahn.step (recorder file)) (s.net.along m) (t.along final)) (f : LogFile) :
    s.files f <+: (writers file f).flatMap fun p => (final p).owed := by
  have hw : ∀ p, w p <+: (final p).owed := by
    intro p
    refine List.IsPrefix.trans ?_ (record_grows ht p)
    rw [h.split p]
    exact List.prefix_append _ _
  rw [h.merged]
  refine Kahn.flatMap_prefix (writers_pairwise file f) hw fun p q hp hq => ?_
  have hm : (m q).owed ≠ [] := by
    rw [h.split q]
    simp [hq]
  obtain ⟨ho, r, rfl, hgone⟩ := h.later hp hm
  rw [record_gone ht hgone, h.split, ho, List.append_nil]

theorem complete_records (hg : GoodFile file) : ∃ t final n, (∀ p, exited t p = true) ∧
    Kahn.Completes (recorder file) (snd file) rcv (start.along fun _ => .closed) (t.along final) n := by
  obtain ⟨t, n, hn, hex, -⟩ := complete_run hg
  have hf : ∃ final, Kahn.Completes (recorder file) (snd file) rcv (start.along fun _ => .closed)
      (t.along final) n := hn.recording _
  obtain ⟨final, hf⟩ := hf
  exact ⟨t, final, n, hex, hf⟩

theorem files_final (h : Ledger file hg s m w) (ho : ∀ p, (s.log p).owed = [])
    (f : LogFile) : s.files f = (writers file f).flatMap fun p => (m p).owed := by
  rw [h.merged]
  refine List.flatMap_congr fun p _ => ?_
  rw [h.split p, ho p, List.append_nil]

end

/-- Whatever the order of the steps and whatever process ids the kernel gives. -/
theorem logs_agree (file : List Line) (hg : GoodFile file) : ∃ lines : LogFile → List LogLine,
    ∀ s, Reachable (Logged.step file) Logged.start s →
      (∀ pid f, s.text pid f <+: (lines f).flatMap (LogLine.text pid)) ∧
        ((s.finished ∧ ∀ pid f, s.text pid f = (lines f).flatMap (LogLine.text pid)) ∨
          ∃ p s', Logged.step file s (.act p) = some s' ∨ Logged.step file s (.note p) = some s') := by
  obtain ⟨t, final, n, hex, hn⟩ := complete_records hg
  refine ⟨fun f => (writers file f).flatMap fun p => (final p).owed, fun s hr => ?_⟩
  obtain ⟨m, w, h⟩ := ledger_reachable hg hr
  obtain ⟨k, hk⟩ := hn.of_reachable h.run
  refine ⟨fun pid f => (files_grow h hk.reachable f).flatMap _, ?_⟩
  by_cases ho : ∀ p, (s.log p).owed = []
  · rcases hn.progress h.run with hf | ⟨p, x, hx⟩
    · obtain ⟨hs, rfl⟩ := Kahn.State.along_inj hf
      refine .inl ⟨fun p => ⟨?_, ho p⟩, fun pid f => ?_⟩
      · rw [hs]
        exact hex p
      · rw [Logged.text, files_final h ho]
    · obtain ⟨s', hs, -⟩ := Kahn.step_recording hx
      have hact : ∃ s'', Logged.step file s (.act p) = some s'' := by
        rw [Logged.step, if_pos (ho p), hs]
        exact ⟨_, rfl⟩
      obtain ⟨s'', hs'⟩ := hact
      exact .inr ⟨p, s'', .inl hs'⟩
  · obtain ⟨p, hp⟩ := not_forall.1 ho
    obtain ⟨x, xs, hx⟩ := List.exists_cons_of_ne_nil hp
    have hnote : ∃ s', Logged.step file s (.note p) = some s' := by
      rw [Logged.step, hx]
      exact ⟨_, rfl⟩
    obtain ⟨s', hs⟩ := hnote
    exact .inr ⟨p, s', .inr hs⟩

end

theorem logs_agree_statusFile : ∃ lines : LogFile → List LogLine,
    ∀ s, Reachable (@Logged.step .int statusFile) Logged.start s →
      (∀ pid f, s.text pid f <+: (lines f).flatMap (LogLine.text pid)) ∧
        ((s.finished ∧ ∀ pid f, s.text pid f = (lines f).flatMap (LogLine.text pid)) ∨
          ∃ p s', @Logged.step .int statusFile s (.act p) = some s' ∨
            @Logged.step .int statusFile s (.note p) = some s') :=
  @logs_agree .int statusFile statusFile_good

end SysProg.Tournament
