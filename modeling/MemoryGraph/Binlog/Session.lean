import MemoryGraph.Binlog.Dispatch
import Mathlib.Data.Prod.Lex

/-!
# MemoryGraph — a session of the watcher (`WatchMysqlBinlog::run`)

`run` asks the server where its binlog ends (`create_binlog_stream_option`), connects a client
there, and then reads events for ever: an event is dispatched, an error is logged, and the loop
goes on in both cases.

* The MySQL driver and the binlog client are a parameter `Server`: what they answer is a
  computation in the monad of the callbacks, and may be an error.
* The outcomes of the reads come as a list. A list of any length is a prefix of the loop, which
  has no end of its own.
* `Row::get` panics where a column does not have the type asked for; these panics are left out.

* **`run_performs_effects`** — once connected, a run performs the callbacks that the events read
  so far call for, each error of a read is logged at its place and has no other effect.
-/

namespace MemoryGraph

/-- A `Row` of an answer: its columns by their names, at the types asked for. -/
structure ResultRow where
  text : String → Option String
  bytes : String → Option ByteArray
  number : String → Option UInt64

/-- A connection of the driver, with the statements a session sends through it. -/
structure Conn (m : Type → Type) (ε : Type) where
  serverVersion : Nat ×ₗ Nat ×ₗ Nat
  ignore : String → m (Except ε Unit)
  firstText : String → m (Except ε (Option String))
  firstRow : String → m (Except ε (Option ResultRow))
  fetch : String → m (Except ε (List ResultRow))

structure BinlogClient where
  url : String
  binlogFilename : String
  binlogPosition : UInt32
  serverId : UInt64
  gtidEnabled : Bool
  gtidSet : String
  heartbeatIntervalSecs : UInt64
  timeoutSecs : UInt64
  deriving DecidableEq

/-- The driver (`Pool::new(..).get_conn()`), the binlog client's `connect`, and `error!`. Reading
the stream fails with a `ρ`. -/
structure Server (m : Type → Type) (ε δ ρ : Type) where
  getConn : String → m (Except ε (Conn m ε))
  connect : BinlogClient → m (Except δ Unit)
  logError : ρ → m Unit

/-- Why a run ends: all of this comes before the loop. -/
inductive RunError (ε δ : Type) where
  | mysql (e : ε)
  | fromUtf8 (filename : ByteArray)
  | connect (e : δ)

namespace WatchMysqlBinlog

variable {m : Type → Type} {Row T R ε δ ρ : Type} [Monad m]

def createBinlogStreamOption (self : WatchMysqlBinlog m Row T R) (server : Server m ε δ ρ) :
    ExceptT ε m (Bool × String × ByteArray × UInt64) := do
  let conn ← ExceptT.mk (server.getConn self.url)
  if toLex (8, toLex (0, 31)) ≤ conn.serverVersion ∧
      conn.serverVersion < toLex (9, toLex (0, 0)) then
    -- `let _ =`: whether the server takes the statement makes no difference
    let _ ← ExceptT.lift (conn.ignore "SET binlog_transaction_compression=ON")
  let (gtId, gtIdSet) ←
    match ← ExceptT.lift (conn.firstText "SELECT @@GLOBAL.GTID_MODE") with
    | .ok (some gtIdMode) =>
      if gtIdMode.startsWith "ON" then do
        let row ← ExceptT.mk (conn.firstRow "SHOW MASTER STATUS")
        pure (true, (row.bind fun row => row.text "Executed_Gtid_Set").getD "")
      else pure (false, "")
    | _ => pure (false, "")
  let row ← ExceptT.mk (conn.fetch "SHOW BINARY LOGS")
  match row.getLast? with
  | some row =>
    pure (gtId, gtIdSet, (row.bytes "Log_name").getD .empty, (row.number "File_size").getD 0)
  | none => pure (gtId, gtIdSet, .empty, 0)

/-- What `run` does before its loop: the client it connects. -/
def openStream (self : WatchMysqlBinlog m Row T R) (server : Server m ε δ ρ) :
    ExceptT (RunError ε δ) m BinlogClient := do
  let (gtId, gtIdSet, filename, position) ←
    ExceptT.adapt RunError.mysql (self.createBinlogStreamOption server)
  match String.fromUTF8? filename with
  | none => throw (.fromUtf8 filename)
  | some binlogFilename =>
    let client : BinlogClient :=
      { url := self.url
        binlogFilename := binlogFilename
        -- `position as u32` keeps the lower half
        binlogPosition := position.toUInt32
        serverId := self.serverId
        gtidEnabled := gtId
        gtidSet := gtIdSet
        heartbeatIntervalSecs := self.heartbeatIntervalSecs
        timeoutSecs := self.timeoutSecs }
    ExceptT.adapt RunError.connect (ExceptT.mk (server.connect client))
    pure client

/-- One round of the loop. -/
def round (server : Server m ε δ ρ) (self : WatchMysqlBinlog m Row T R) :
    Except ρ (EventData Row) → m (WatchMysqlBinlog m Row T R)
  | .ok data => self.parseJsonColumns data
  | .error e => do
    server.logError e
    pure self

/-- `WatchMysqlBinlog::run` up to the given reads, with the watcher they leave. -/
def run (self : WatchMysqlBinlog m Row T R) (server : Server m ε δ ρ)
    (reads : List (Except ρ (EventData Row))) :
    ExceptT (RunError ε δ) m (WatchMysqlBinlog m Row T R) := do
  let _ ← self.openStream server
  ExceptT.lift (reads.foldlM (round server) self)

end WatchMysqlBinlog

/-! ## The specification -/

/-- The events among the outcomes of reads. -/
def eventsRead {Row ρ : Type} (reads : List (Except ρ (EventData Row))) : List (EventData Row) :=
  reads.filterMap Except.toOption

def errorsRead {Row ρ : Type} (reads : List (Except ρ (EventData Row))) : List ρ :=
  reads.filterMap fun
    | .ok _ => none
    | .error e => some e

/-- What a session does to the outside: a callback, or a line in the log. -/
inductive Effect (Row ρ : Type) where
  | call (c : Callback Row)
  | log (e : ρ)

namespace Effect

variable {m : Type → Type} {Row T R ε δ ρ : Type}

def perform [Monad m] (server : Server m ε δ ρ) (node : Item m Row T) (edge : Item m Row R) :
    Effect Row ρ → m Unit
  | .call c => c.perform node edge
  | .log e => server.logError e

def call? : Effect Row ρ → Option (Callback Row)
  | .call c => some c
  | .log _ => none

def log? : Effect Row ρ → Option ρ
  | .call _ => none
  | .log e => some e

end Effect

section Effects

variable {m : Type → Type} {Row T R ε δ ρ : Type}

/-- The effects of the reads, after the events `seen`. -/
def effects (node : Item m Row T) (edge : Item m Row R) :
    List (EventData Row) → List (Except ρ (EventData Row)) → List (Effect Row ρ)
  | _, [] => []
  | seen, .error e :: rest => .log e :: effects node edge seen rest
  | seen, .ok ev :: rest =>
    (ev.callbacks (watched node edge seen)).map .call ++ effects node edge (seen ++ [ev]) rest

/-- Errors in between do not change which callbacks the events call for. -/
theorem calls_effects (node : Item m Row T) (edge : Item m Row R) (seen : List (EventData Row))
    (reads : List (Except ρ (EventData Row))) :
    (effects node edge seen reads).filterMap Effect.call?
      = expected node edge seen (eventsRead reads) := by
  induction reads generalizing seen with
  | nil => rfl
  | cons read rest ih =>
    cases read with
    | error e => exact ih seen
    | ok ev =>
      have hcalls : ((ev.callbacks (watched node edge seen)).map
          (Effect.call : Callback Row → Effect Row ρ)).filterMap Effect.call?
          = ev.callbacks (watched node edge seen) := by
        rw [List.filterMap_map]
        exact List.filterMap_some
      rw [effects, List.filterMap_append, hcalls, ih]
      rfl

/-- Every error is logged, in order. -/
theorem logs_effects (node : Item m Row T) (edge : Item m Row R) (seen : List (EventData Row))
    (reads : List (Except ρ (EventData Row))) :
    (effects node edge seen reads).filterMap Effect.log? = errorsRead reads := by
  induction reads generalizing seen with
  | nil => rfl
  | cons read rest ih =>
    cases read with
    | error e => exact congrArg (e :: ·) (ih seen)
    | ok ev =>
      have hquiet : ((ev.callbacks (watched node edge seen)).map
          (Effect.call : Callback Row → Effect Row ρ)).filterMap Effect.log? = [] := by
        rw [List.filterMap_map]
        exact List.filterMap_eq_nil_iff.mpr fun _ _ => rfl
      rw [effects, List.filterMap_append, hquiet, ih]
      rfl

variable [Monad m] [LawfulMonad m]

/-- What the loop does, from a watcher that knows the events `seen`. -/
theorem Cached.loop_eq {seen : List (EventData Row)} {w : WatchMysqlBinlog m Row T R}
    (h : Cached seen w) (server : Server m ε δ ρ) {reads : List (Except ρ (EventData Row))}
    (hbound : BoundOnce (seen ++ eventsRead reads)) :
    reads.foldlM (WatchMysqlBinlog.round server) w
      = forM (effects w.node w.edge seen reads) (Effect.perform server w.node w.edge)
        >>= fun _ => pure ((eventsRead reads).foldl .absorb w) := by
  induction reads generalizing seen w with
  | nil => simp [effects, eventsRead]
  | cons read rest ih =>
    rw [List.foldlM_cons]
    cases read with
    | error e =>
      -- the watcher goes on as it is
      rw [WatchMysqlBinlog.round, bind_assoc, effects, List.forM_cons, bind_assoc]
      simp only [pure_bind, ih h hbound]
      rfl
    | ok ev =>
      have hseen : BoundOnce seen := fun e e' he he' =>
        hbound e e' (List.mem_append_left _ he) (List.mem_append_left _ he')
      have hevents : eventsRead (.ok ev :: rest) = ev :: eventsRead rest := rfl
      rw [hevents] at hbound ⊢
      have hrest := ih (h.absorb ev) (by simpa using hbound)
      rw [WatchMysqlBinlog.round, WatchMysqlBinlog.parseJsonColumns_eq, bind_assoc, effects,
        List.forM_append, bind_assoc, h.target_eq hseen]
      simp only [pure_bind, hrest, WatchMysqlBinlog.absorb_node, WatchMysqlBinlog.absorb_edge,
        List.foldl_cons]
      rw [List.forM_map]
      rfl

/-- **A session dispatches what it reads.** For any server, any two items and any outcomes of
the reads in whose events every table number is bound to a single table: a run is its opening,
and then exactly the callbacks that the events read call for, in order, with each error of a
read in the log at its place. The errors do not change the callbacks. -/
theorem run_performs_effects (node : Item m Row T) (edge : Item m Row R) (url : String)
    (heartbeatIntervalSecs timeoutSecs serverId : UInt64) (server : Server m ε δ ρ)
    {reads : List (Except ρ (EventData Row))} (hbound : BoundOnce (eventsRead reads)) :
    (do
      let w := WatchMysqlBinlog.new node edge url heartbeatIntervalSecs timeoutSecs serverId
      let _ ← w.run server reads
      pure ()) = (do
      let w := WatchMysqlBinlog.new node edge url heartbeatIntervalSecs timeoutSecs serverId
      let _ ← w.openStream server
      ExceptT.lift (forM (effects node edge [] reads) (Effect.perform server node edge))) ∧
    (effects node edge [] reads).filterMap Effect.call? = expected node edge [] (eventsRead reads) ∧
    (effects node edge [] reads).filterMap Effect.log? = errorsRead reads := by
  refine ⟨?_, calls_effects node edge [] reads, logs_effects node edge [] reads⟩
  have hnew : Cached ([] : List (EventData Row))
      (WatchMysqlBinlog.new node edge url heartbeatIntervalSecs timeoutSecs serverId) :=
    .new node edge url heartbeatIntervalSecs timeoutSecs serverId
  simp only [WatchMysqlBinlog.run, hnew.loop_eq server hbound, ExceptT.lift_bind,
    ExceptT.lift_pure, bind_assoc, pure_bind, bind_pure_unit]
  rfl

end Effects

/-- A server that answers everything, with its binlog at `binlog.000002`. -/
def steadyServer : Server (StateM (List (Target × Int8 × Option Nat))) Unit Unit String where
  getConn _ := pure <| .ok
    { serverVersion := toLex (8, toLex (0, 36))
      ignore := fun _ => pure (.ok ())
      firstText := fun _ => pure (.ok (some "OFF"))
      firstRow := fun _ => pure (.ok none)
      fetch := fun _ => pure <| .ok
        [{ text := fun _ => none
           bytes := fun _ => some "binlog.000002".toUTF8
           number := fun _ => some 157 }] }
  connect _ := pure (.ok ())
  logError _ := pure ()

/-- A read fails before every event of the sample stream. -/
def sampleReads : List (Except String (EventData String)) :=
  sampleStream.flatMap fun ev => [.error "lost", .ok ev]

/-- The errors among the reads change no callback. -/
theorem sampleReads_performs_effects :
    (do
      let w := WatchMysqlBinlog.new (loggingItem .node "db" "nodes")
        (loggingItem .edge "db2" "edges") "" 0 0 0
      let _ ← w.run steadyServer sampleReads
      pure ()) = (do
      let w := WatchMysqlBinlog.new (loggingItem .node "db" "nodes")
        (loggingItem .edge "db2" "edges") "" 0 0 0
      let _ ← w.openStream steadyServer
      ExceptT.lift (forM (effects (loggingItem .node "db" "nodes") (loggingItem .edge "db2" "edges")
        [] sampleReads) (Effect.perform steadyServer (loggingItem .node "db" "nodes")
          (loggingItem .edge "db2" "edges")))) ∧
    (effects (loggingItem .node "db" "nodes") (loggingItem .edge "db2" "edges") []
      sampleReads).filterMap Effect.call? =
      [⟨.node, 1, ["a", "b"]⟩, ⟨.edge, 2, ["a", "b"]⟩, ⟨.edge, 2, ["c", "d"]⟩,
        ⟨.node, 3, ["b"]⟩] := by
  have hbound : BoundOnce (eventsRead sampleReads) := by decide
  obtain ⟨hrun, hcalls, -⟩ := run_performs_effects (loggingItem .node "db" "nodes")
    (loggingItem .edge "db2" "edges") "" 0 0 0 steadyServer hbound
  exact ⟨hrun, hcalls.trans (by decide)⟩

end MemoryGraph
