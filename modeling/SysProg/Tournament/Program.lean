import SysProg.Arith
import SysProg.CLib
import SysProg.Kahn

/-!
# SysProg.Tournament.Program

`battle.c` and `player.c`: a battle process for each of the battles `A` to `N`, a player process for
each of the players 0 to 7 and the agents 8 to 14.

* `Status`, `Line`: what the processes send each other; a line of `player_status.txt`.
* `play`: a round of a battle.
* `battleMain`, `playerMain`: the two programs, as what a process does next where it stands.
* `Event`: a process goes on, or it fails once more to open a FIFO that does not exist yet.

Slot 0 is `false`, slot 1 is `true`. `HP` and `ATK` are computed in any arithmetic: that of `int`, which
wraps around, or the integers. The log files are in `SysProg.Tournament.Logs`.
-/

namespace SysProg.Tournament

open Arith (wrap)

variable [Arith]

inductive Attribute where
  | FIRE | GRASS | WATER
deriving DecidableEq, Repr

structure Status where
  realPlayerId : Int
  HP : Int
  ATK : Int
  attr : Attribute
  currentBattleId : Char
  battleEndedFlag : Int
deriving DecidableEq, Repr

/-- A variable before it is first assigned to: all bytes 0. -/
def Status.zero : Status := ⟨0, 0, 0, .FIRE, '\x00', 0⟩

inductive Battle where
  | A | B | C | D | E | F | G | H | I | J | K | L | M | N
deriving DecidableEq, Repr

abbrev PlayerId := Fin 15

scoped instance neZero_players : NeZero 15 := ⟨by decide⟩

inductive Proc where
  | battle (id : Battle)
  | player (id : PlayerId)
deriving DecidableEq, Repr

def Battle.letter : Battle → Char
  | .A => 'A' | .B => 'B' | .C => 'C' | .D => 'D' | .E => 'E' | .F => 'F' | .G => 'G'
  | .H => 'H' | .I => 'I' | .J => 'J' | .K => 'K' | .L => 'L' | .M => 'M' | .N => 'N'

/-- `child_name`: up to `battle_num` capital letters, for battles, then players counted from `'a'`. -/
def child : Battle → Bool → Proc
  | .A, false => .battle .B | .A, true => .battle .C
  | .B, false => .battle .D | .B, true => .battle .E
  | .C, false => .battle .F | .C, true => .player 14
  | .D, false => .battle .G | .D, true => .battle .H
  | .E, false => .battle .I | .E, true => .battle .J
  | .F, false => .battle .K | .F, true => .battle .L
  | .G, false => .player 0 | .G, true => .player 1
  | .H, false => .player 2 | .H, true => .player 3
  | .I, false => .player 4 | .I, true => .player 5
  | .J, false => .player 6 | .J, true => .player 7
  | .K, false => .battle .M | .K, true => .player 10
  | .L, false => .battle .N | .L, true => .player 13
  | .M, false => .player 8 | .M, true => .player 9
  | .N, false => .player 11 | .N, true => .player 12

def attrTable : Battle → Attribute
  | .A => .FIRE | .B => .GRASS | .C => .WATER | .D => .WATER | .E => .FIRE | .F => .FIRE | .G => .FIRE
  | .H => .GRASS | .I => .WATER | .J => .GRASS | .K => .GRASS | .L => .GRASS | .M => .FIRE
  | .N => .WATER

def whichAgent (currentBattleId : Char) : Option PlayerId :=
  match currentBattleId with
  | 'G' => some 8
  | 'I' => some 9
  | 'D' => some 10
  | 'H' => some 11
  | 'J' => some 12
  | 'E' => some 13
  | 'B' => some 14
  | _ => none

/-- A line of `player_status.txt`; `fscanf` stores the numbers as `int`. -/
structure Line where
  HP : Int
  ATK : Int
  buf : Text
  currentBattleId : Char
  battleEndedFlag : Int
deriving DecidableEq, Repr

/-- An unknown attribute leaves the one of the line before. -/
def Status.scan (m : Status) (x : Line) : Status :=
  { m with
    HP := wrap x.HP
    ATK := wrap x.ATK
    currentBattleId := x.currentBattleId
    battleEndedFlag := wrap x.battleEndedFlag
    attr :=
      if strcmp x.buf "FIRE".toList = 0 then .FIRE
      else if strcmp x.buf "GRASS".toList = 0 then .GRASS
      else if strcmp x.buf "WATER".toList = 0 then .WATER
      else m.attr }

def readStatus (file : List Line) (id : PlayerId) : Status :=
  (file.take (id.val + 1)).foldl Status.scan { Status.zero with realPlayerId := id.val }

/-! ## Channels and flags -/

inductive Chan where
  /-- The pipe from the parent that is `stdin` of the process. -/
  | stdin (p : Proc)
  /-- The pipe to the parent that is its `stdout`. -/
  | stdout (p : Proc)
  | fifo (k : PlayerId)
deriving DecidableEq, Repr

inductive Flag where
  | forked (p : Proc)
  | exited (p : Proc)
  /-- The FIFO is there. -/
  | made (k : PlayerId)
  /-- It has been opened for reading, or is about to be as soon as there is a writer. -/
  | reading (k : PlayerId)
  | writing (k : PlayerId)
  /-- `Champion is Pk` has been printed. -/
  | champion (k : Int)
deriving DecidableEq, Repr

/-! ## Battles -/

inductive BattlePc where
  | start
  | fork (i : Bool)
  | read (i : Bool)
  | write (i : Bool)
  | reread (i : Bool)
  | wait
  | relayRead
  | relayUp
  | relayDown
  | relayWrite
  | waitLast
  | report
  | exit
  | done
deriving DecidableEq, Repr

structure BattleLoc where
  pc : BattlePc
  status : Bool → Status
  win : Bool

def damage (attr : Attribute) (x : Status) : Int := wrap (x.ATK * (if x.attr = attr then 2 else 1))

def Status.hitBy (x : Status) (attr : Attribute) (y : Status) : Status :=
  { x with HP := wrap (x.HP - damage attr y) }

def ended (status : Bool → Status) : Bool → Status := fun i => { status i with battleEndedFlag := 1 }

/-- The slot that hits first. -/
def first (status : Bool → Status) : Bool :=
  !decide ((status false).HP < (status true).HP ∨ ((status false).HP = (status true).HP ∧
    (status false).realPlayerId < (status true).realPlayerId))

def play (attr : Attribute) (status : Bool → Status) : Bool → Status :=
  let x := first status
  let s := Function.update status (!x) ((status (!x)).hitBy attr (status x))
  if (s (!x)).HP ≤ 0 then ended s
  else
    let s' := Function.update s x ((s x).hitBy attr (s (!x)))
    if (s' x).HP ≤ 0 then ended s' else s'

namespace BattleLoc

/-- `play()` and on to the two writes. -/
def fight (l : BattleLoc) (attr : Attribute) : BattleLoc :=
  { l with status := play attr l.status, pc := .write false }

/-- After the two writes. -/
def judge (l : BattleLoc) : BattleLoc :=
  if (l.status false).battleEndedFlag = 1 then
    { l with win := decide ¬ 0 < (l.status false).HP, pc := .wait }
  else { l with pc := .reread false }

/-- The end of a round of the relay loop. -/
def relayed (l : BattleLoc) : BattleLoc :=
  if (l.status l.win).HP ≤ 0 ∨
      ((l.status l.win).currentBattleId = 'A' ∧ (l.status l.win).battleEndedFlag = 1) then
    { l with pc := .waitLast }
  else { l with pc := .relayRead }

def store (l : BattleLoc) (i : Bool) (v : Status) : BattleLoc :=
  { l with status := Function.update l.status i v }

end BattleLoc

def battleMain (id : Battle) (l : BattleLoc) : Kahn.Action Chan Flag Status BattleLoc :=
  match l.pc with
  | .start => .await [[.forked (.battle id)]] { l with pc := .fork false }
  | .fork false => .raise (.forked (child id false)) { l with pc := .fork true }
  | .fork true => .raise (.forked (child id true)) { l with pc := .read false }
  | .read false => .recv (.stdout (child id false)) fun v =>
      { l.store false { v with currentBattleId := id.letter } with pc := .read true }
  | .read true => .recv (.stdout (child id true)) fun v =>
      (l.store true { v with currentBattleId := id.letter }).fight (attrTable id)
  | .write false => .send (.stdin (child id false)) (l.status false) { l with pc := .write true }
  | .write true => .send (.stdin (child id true)) (l.status true) l.judge
  | .reread false => .recv (.stdout (child id false)) fun v =>
      { l.store false v with pc := .reread true }
  | .reread true => .recv (.stdout (child id true)) fun v => (l.store true v).fight (attrTable id)
  | .wait => .await [[.exited (child id false), .exited (child id true)]]
      { l with pc := if id = .A then .waitLast else .relayRead }
  | .relayRead => .recv (.stdout (child id l.win)) fun v => { l.store l.win v with pc := .relayUp }
  | .relayUp => .send (.stdout (.battle id)) (l.status l.win) { l with pc := .relayDown }
  | .relayDown => .recv (.stdin (.battle id)) fun v => { l.store l.win v with pc := .relayWrite }
  | .relayWrite => .send (.stdin (child id l.win)) (l.status l.win) l.relayed
  | .waitLast => .await [[.exited (child id false)], [.exited (child id true)]]
      { l with pc := if id = .A then .report else .exit }
  | .report => .raise (.champion (l.status l.win).realPlayerId) { l with pc := .exit }
  | .exit => .raise (.exited (.battle id)) { l with pc := .done }
  | .done => .halt

/-! ## Players -/

inductive PlayerPc where
  | start
  | mkfifo
  | openRead
  | opening
  | readFifo
  | enter
  | read
  | write
  | openWrite (k : PlayerId)
  | found (k : PlayerId)
  | openingWrite (k : PlayerId)
  | writeFifo (k : PlayerId)
  /-- `which_agent` falls off its end: nothing is known of what it returns. -/
  | stray
  | exit
  | done
deriving DecidableEq, Repr

structure PlayerLoc where
  pc : PlayerPc
  mystatus : Status
  originHP : Int
deriving DecidableEq, Repr

/-- `(origin_HP - mystatus.HP) / 2 + mystatus.HP` -/
def Status.heal (m : Status) (originHP : Int) : Status :=
  { m with battleEndedFlag := 0, HP := wrap ((wrap (originHP - m.HP)).tdiv 2 + m.HP) }

namespace PlayerLoc

/-- After the loop, when the player has lost. -/
def leave (l : PlayerLoc) (id : PlayerId) : PlayerLoc :=
  if l.mystatus.currentBattleId ≠ 'A' ∧ id ≤ 7 then
    match whichAgent l.mystatus.currentBattleId with
    | some k => { l with mystatus := { l.mystatus with HP := l.originHP, battleEndedFlag := 0 }
                         pc := .openWrite k }
    | none => { l with pc := .stray }
  else { l with pc := .exit }

/-- After a status has been read into `mystatus`. -/
def received (l : PlayerLoc) (id : PlayerId) : PlayerLoc :=
  if l.mystatus.battleEndedFlag = 1 then
    if l.mystatus.HP ≤ 0 then l.leave id
    else if l.mystatus.currentBattleId = 'A' then { l with pc := .exit }
    else { l with mystatus := l.mystatus.heal l.originHP, pc := .write }
  else { l with pc := .write }

end PlayerLoc

/-- Opening a FIFO makes the other side's `open` return and waits for the other side. -/
def playerMain (file : List Line) (id : PlayerId) (l : PlayerLoc) :
    Kahn.Action Chan Flag Status PlayerLoc :=
  match l.pc with
  | .start => .await [[.forked (.player id)]]
      (if id ≤ 7 then { l with mystatus := readStatus file id, pc := .enter }
      else { l with pc := .mkfifo })
  | .mkfifo => .raise (.made id) { l with pc := .openRead }
  | .openRead => .raise (.reading id) { l with pc := .opening }
  | .opening => .await [[.writing id]] { l with pc := .readFifo }
  | .readFifo => .recv (.fifo id) fun v => { l with mystatus := v, pc := .enter }
  | .enter => .send (.stdout (.player id)) l.mystatus { l with originHP := l.mystatus.HP, pc := .read }
  | .read => .recv (.stdin (.player id)) fun v => ({ l with mystatus := v }).received id
  | .write => .send (.stdout (.player id)) l.mystatus { l with pc := .read }
  | .openWrite k => .await [[.made k]] { l with pc := .found k }
  | .found k => .raise (.writing k) { l with pc := .openingWrite k }
  | .openingWrite k => .await [[.reading k]] { l with pc := .writeFifo k }
  | .writeFifo k => .send (.fifo k) l.mystatus { l with pc := .exit }
  | .stray => .await [[]] l
  | .exit => .raise (.exited (.player id)) { l with pc := .done }
  | .done => .halt

/-! ## All processes -/

abbrev Loc : Proc → Type
  | .battle _ => BattleLoc
  | .player _ => PlayerLoc

abbrev State := Kahn.State Proc Chan Flag Status Loc

def prog (file : List Line) : (p : Proc) → Loc p → Kahn.Action Chan Flag Status (Loc p)
  | .battle id, l => battleMain id l
  | .player id, l => playerMain file id l

/-- `./battle A 0` -/
def start : State where
  loc
    | .battle _ => (⟨.start, fun _ => Status.zero, false⟩ : BattleLoc)
    | .player _ => (⟨.start, Status.zero, 0⟩ : PlayerLoc)
  queue _ := []
  taken _ := []
  up f := decide (f = .forked (.battle .A))

inductive Event where
  | act (p : Proc)
  /-- `open` returns -1 and is tried again. -/
  | retry (p : Proc)
deriving DecidableEq, Repr

def battleLoc (s : State) (id : Battle) : BattleLoc := s.loc (.battle id)

def playerLoc (s : State) (id : PlayerId) : PlayerLoc := s.loc (.player id)

def retries (s : State) : Proc → Bool
  | .battle _ => false
  | .player id =>
    match (playerLoc s id).pc with
    | .openWrite k => !s.up (.made k)
    | _ => false

def step (file : List Line) (s : State) : Event → Option State
  | .act p => Kahn.step (prog file) s p
  | .retry p => if retries s p then some s else none

def exited (s : State) : Proc → Bool
  | .battle id => (battleLoc s id).pc = .done
  | .player id => (playerLoc s id).pc = .done

end SysProg.Tournament
