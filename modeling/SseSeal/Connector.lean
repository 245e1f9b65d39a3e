import SseSeal.SealMessages
import SseSeal.StateExcept

/-! `Connector`, which sends the statements of the service to its relational database, and the
handlers that use it. Its one transaction is committed with the first statement, so that no
request after that one, and none of those that began with it, does what it asks for. -/
namespace Connector

open Bytes StateExcept SealMessages SealService

/-- The text of a `stringstream` that was constructed with a text and then written to. The output
goes over the text from its start. -/
def streamed (text output : Str) : Str := output ++ text.drop output.length

def dropTableCommand (table : Str) : Str := ofAscii "DROP TABLE IF EXISTS " ++ table

def createTableCommand (table : Str) (columnNames : List Str) : Str :=
  streamed (ofAscii "CREATE TABLE IF NOT EXISTS ") (table ++ ofAscii "(" ++
    columnNames.zipIdx.flatMap fun column => column.1 ++ ofAscii " VARCHAR(128)" ++
      if column.2 = columnNames.length - 1 then ofAscii ", " else ofAscii ")")

/-- The loop reads the value before the one that it is at, so that its first read is undefined. -/
def insertCommand (table : Str) (values : List Str) : Option Str := do
  let quoted ← values.zipIdx.mapM fun value => do
    let previous ← values[(value.2 + (2 ^ 32 - 1)) % 2 ^ 32]?
    return ofAscii "'" ++ previous ++ ofAscii "'" ++
      if value.2 = values.length - 1 then ofAscii ")" else ofAscii ", "
  return streamed (ofAscii "INSERT INTO ") (table ++ ofAscii " VALUES(" ++ quoted.flatten)

def selectCommand (table condition : Str) (columns : List Str) : Str :=
  streamed (ofAscii "SELECT ") ((columns.zipIdx.flatMap fun column => column.1 ++
      if column.2 = columns.length - 1 then column.1 else column.1 ++ ofAscii ", ") ++
    ofAscii " FROM " ++ table ++ ofAscii "WHERE document_id = " ++ condition)

/-- What `pqxx` throws, of which the handlers only catch `sql_error`. -/
inductive PqxxError where
  | sqlError
  | failure
  deriving DecidableEq, Repr

inductive Outcome where
  | done
  | rows
  | threw (e : PqxxError)
  deriving DecidableEq, Repr

/-- `pqxx`, with the states `T` of a transaction and `W` of all else. A new connection takes the
place of the one that was there. -/
structure Pqxx (T W : Type) where
  connect : Str → Option T → W → Except PqxxError T × W
  exec : T → Str → W → Outcome × T × W
  commit : T → W → Option PqxxError × T × W

structure Server (T W : Type) where
  connector : Option T
  world : W
  /-- What the database has executed. -/
  executed : List Str

inductive Error where
  | pqxx (e : PqxxError)
  | undefinedBehaviour
  deriving DecidableEq, Repr

section Handlers

variable {T W : Type} (lib : Pqxx T W)

abbrev ServerM (T W : Type) := EStateM Error (Server T W)

def execute (sql : Str) : ServerM T W Outcome := do
  let s ← get
  let t ← orThrow .undefinedBehaviour s.connector
  let (outcome, t', w) := lib.exec t sql s.world
  let executed := match outcome with
    | .threw _ => s.executed
    | _ => s.executed ++ [sql]
  set (⟨some t', w, executed⟩ : Server T W)
  return outcome

def exec0 (sql : Str) : ServerM T W PUnit := do
  match ← execute lib sql with
  | .done => return ⟨⟩
  | .rows => throw (.pqxx .failure)
  | .threw e => throw (.pqxx e)

def exec (sql : Str) : ServerM T W PUnit := do
  match ← execute lib sql with
  | .threw e => throw (.pqxx e)
  | _ => return ⟨⟩

def commit : ServerM T W PUnit := do
  let s ← get
  let t ← orThrow .undefinedBehaviour s.connector
  let (e, t', w) := lib.commit t s.world
  set { s with connector := some t', world := w }
  match e with
  | none => return ⟨⟩
  | some e => throw (.pqxx e)

def createTableHandler (table : Str) (columnNames : List Str) : ServerM T W PUnit := do
  exec0 lib (dropTableCommand table)
  commit lib
  exec0 lib (createTableCommand table columnNames)
  commit lib

def insertHandler (table : Str) (values : List Str) : ServerM T W PUnit := do
  let sql ← orThrow .undefinedBehaviour (insertCommand table values)
  exec0 lib sql
  commit lib

def selectHandler (table condition : Str) (columns : List Str) : ServerM T W PUnit :=
  exec lib (selectCommand table condition columns)

/-- The constructor. A connector that cannot be made leaves the one that was there. -/
def connect (connectionInformation : Str) : ServerM T W PUnit := do
  let s ← get
  match lib.connect connectionInformation s.connector s.world with
  | (.ok t, w) => set { s with connector := some t, world := w }
  | (.error e, w) =>
    set { s with world := w }
    throw (.pqxx e)

/-- A handler turns an `sql_error` into a status, and lets all else through. -/
def answered (x : ServerM T W PUnit) : ServerM T W Status := fun s =>
  match x s with
  | .ok _ s' => .ok .ok s'
  | .error (.pqxx .sqlError) s' => .ok .failedPrecondition s'
  | .error e s' => .error e s'

inductive Request where
  | setup (m : SetupMessage)
  | insert (m : InsertMessage)
  | select (m : SelectMessage)

def Request.handle : Request → ServerM T W Status
  | .setup m => answered do
    connect lib m.connectionInformation
    createTableHandler lib m.tableName m.columnNames
  | .insert m => answered (insertHandler lib m.table m.values)
  | .select m => answered (selectHandler lib m.table m.documentId m.columns)

/-- Requests one after the other, as far as what the server does is defined. -/
def serve : List Request → Server T W → List (Except Error Status) × Server T W
  | [], s => ([], s)
  | request :: requests, s =>
    match request.handle lib s with
    | .ok status s' =>
      let rest := serve requests s'
      (.ok status :: rest.1, rest.2)
    | .error .undefinedBehaviour s' => ([.error .undefinedBehaviour], s')
    | .error e s' =>
      let rest := serve requests s'
      (.error e :: rest.1, rest.2)

end Handlers

variable {T W : Type} {lib : Pqxx T W} {Dead : T → Prop} {s : Server T W} {sql : Str}

/-- How transactions behave, of which some are dead: after a statement that was refused, or after
the commit, a transaction takes no more statements. -/
structure Documented (lib : Pqxx T W) (Dead : T → Prop) : Prop where
  dead_of_threw : ∀ t sql w e, (lib.exec t sql w).1 = .threw e → Dead (lib.exec t sql w).2.1
  threw_of_dead : ∀ t sql w, Dead t → ∃ e, (lib.exec t sql w).1 = .threw e
  commit_dead : ∀ t w, Dead (lib.commit t w).2.1
  /-- One command that drops tables has no rows. -/
  drop_no_rows : ∀ t table w, 59 ∉ table → (lib.exec t (dropTableCommand table) w).1 ≠ .rows

/-- A server that has no transaction or a dead one. -/
def Useless (Dead : T → Prop) (s : Server T W) : Prop := ∀ t, s.connector = some t → Dead t

theorem execute_run (lib : Pqxx T W) {t : T} (ht : s.connector = some t) (sql : Str) :
    (execute lib sql).run s = .ok (lib.exec t sql s.world).1
      ⟨some (lib.exec t sql s.world).2.1, (lib.exec t sql s.world).2.2,
        match (lib.exec t sql s.world).1 with
        | .threw _ => s.executed
        | _ => s.executed ++ [sql]⟩ := by
  simp only [execute, run_bind_ok (run_get s), ht]
  rfl

theorem execute_none (hs : s.connector = none) (sql : Str) :
    (execute lib sql).run s = .error .undefinedBehaviour s := by
  simp only [execute, run_bind_ok (run_get s), hs]
  rfl

theorem execute_dead (hlib : Documented lib Dead) (h : Useless Dead s) (sql : Str) :
    Ends (execute lib sql) s
      (fun outcome u => (∃ e, outcome = .threw e) ∧ Useless Dead u ∧ u.executed = s.executed)
      fun _ u => Useless Dead u ∧ u.executed = s.executed := by
  cases ht : s.connector with
  | none => exact ends_error (execute_none ht sql) ⟨h, rfl⟩
  | some t =>
    obtain ⟨e, he⟩ := hlib.threw_of_dead t sql s.world (h t ht)
    have hdead := hlib.dead_of_threw t sql s.world e he
    refine ends_ok (execute_run lib ht sql) ⟨⟨e, he⟩, ?_, ?_⟩
    · intro t' heq
      cases heq
      exact hdead
    · rw [he]

theorem exec0_dead (hlib : Documented lib Dead) (h : Useless Dead s) (sql : Str) :
    Ends (exec0 lib sql) s (fun _ _ => False)
      fun _ u => Useless Dead u ∧ u.executed = s.executed := by
  apply (execute_dead hlib h sql).bind
  intro outcome u hpost
  obtain ⟨⟨e, rfl⟩, hu⟩ := hpost
  exact ends_error rfl hu

theorem exec_dead (hlib : Documented lib Dead) (h : Useless Dead s) (sql : Str) :
    Ends (exec lib sql) s (fun _ _ => False)
      fun _ u => Useless Dead u ∧ u.executed = s.executed := by
  apply (execute_dead hlib h sql).bind
  intro outcome u hpost
  obtain ⟨⟨e, rfl⟩, hu⟩ := hpost
  exact ends_error rfl hu

theorem commit_run (lib : Pqxx T W) {t : T} (ht : s.connector = some t) : (commit lib).run s =
    (match (lib.commit t s.world).1 with
      | none => return ⟨⟩
      | some e => throw (.pqxx e) : ServerM T W PUnit).run
      { s with connector := some (lib.commit t s.world).2.1,
               world := (lib.commit t s.world).2.2 } := by
  simp only [commit, run_bind_ok (run_get s), ht]
  rfl

theorem commit_ends (hlib : Documented lib Dead) {t : T} (ht : s.connector = some t) :
    Ends (commit lib) s (fun _ u => Useless Dead u ∧ u.executed = s.executed)
      fun _ u => Useless Dead u ∧ u.executed = s.executed := by
  have hrun := commit_run lib ht
  have huseless : Useless Dead { s with connector := some (lib.commit t s.world).2.1,
                                        world := (lib.commit t s.world).2.2 } := by
    intro t' heq
    cases heq
    exact hlib.commit_dead t s.world
  cases he : (lib.commit t s.world).1 with
  | none =>
    rw [he] at hrun
    exact ends_ok hrun ⟨huseless, rfl⟩
  | some e =>
    rw [he] at hrun
    exact ends_error hrun ⟨huseless, rfl⟩

/-- What the request added to what was executed is the statement that drops a table, at most. -/
def Dropped (tables : List Str) (s u : Server T W) : Prop :=
  ∃ l, u.executed = s.executed ++ l ∧ ∀ sql ∈ l, ∃ table ∈ tables, sql = dropTableCommand table

theorem dropped_of_eq {tables : List Str} {u : Server T W} (h : u.executed = s.executed) :
    Dropped tables s u := ⟨[], h.trans (List.append_nil _).symm, nofun⟩

/-- A setup drops the table, and its commit ends the transaction that was to create it. -/
theorem createTableHandler_fails (hlib : Documented lib Dead) {t : T}
    (ht : s.connector = some t) {table : Str} (htable : 59 ∉ table) (columnNames : List Str) :
    Ends (createTableHandler lib table columnNames) s (fun _ _ => False)
      fun _ u => Useless Dead u ∧ Dropped [table] s u := by
  have hdrop : Ends (exec0 lib (dropTableCommand table)) s
      (fun _ u => u.connector ≠ none ∧ u.executed = s.executed ++ [dropTableCommand table])
      fun _ u => Useless Dead u ∧ Dropped [table] s u := by
    have hrun := execute_run lib ht (dropTableCommand table)
    rw [exec0]
    cases ho : (lib.exec t (dropTableCommand table) s.world).1 with
    | done =>
      rw [ho] at hrun
      exact ends_ok ((run_bind_ok hrun).trans rfl) ⟨Option.some_ne_none _, rfl⟩
    | rows => exact absurd ho (hlib.drop_no_rows t table s.world htable)
    | threw e =>
      have hdead := hlib.dead_of_threw t _ s.world e ho
      rw [ho] at hrun
      refine ends_error ((run_bind_ok hrun).trans rfl) ⟨?_, dropped_of_eq rfl⟩
      intro t' heq
      cases heq
      exact hdead
  apply hdrop.bind
  intro _ u hpost
  obtain ⟨hu, hexecuted⟩ := hpost
  obtain ⟨t', ht'⟩ := Option.ne_none_iff_exists'.mp hu
  have hdropped : ∀ v : Server T W, v.executed = u.executed → Dropped [table] s v := by
    intro v hv
    refine ⟨[dropTableCommand table], hv.trans hexecuted, ?_⟩
    simp
  apply ((commit_ends hlib ht').imp (fun _ _ hv => hv)
    fun _ v hv => ⟨hv.1, hdropped v hv.2⟩).bind
  intro _ v hpost
  obtain ⟨hv, hsame⟩ := hpost
  apply ((exec0_dead hlib hv _).imp (fun _ _ hfalse => hfalse)
    fun _ w hw => ⟨hw.1, hdropped w (hw.2.trans hsame)⟩).bind
  intro _ w hfalse
  exact hfalse.elim

theorem setup_fails (hlib : Documented lib Dead) (h : Useless Dead s) {m : SetupMessage}
    (hm : 59 ∉ m.tableName) :
    Ends (do connect lib m.connectionInformation
             createTableHandler lib m.tableName m.columnNames) s (fun _ _ => False)
      fun _ u => Useless Dead u ∧ Dropped [m.tableName] s u := by
  have hconnect : Ends (connect lib m.connectionInformation) s
      (fun _ u => u.connector ≠ none ∧ u.executed = s.executed)
      fun _ u => Useless Dead u ∧ Dropped [m.tableName] s u := by
    rw [connect]
    apply returns_get.ends.bind
    intro _ _ hget
    obtain ⟨rfl, rfl⟩ := hget
    split
    · exact ends_ok rfl ⟨Option.some_ne_none _, rfl⟩
    · exact ends_error rfl ⟨h, dropped_of_eq rfl⟩
  apply hconnect.bind
  intro _ u hpost
  obtain ⟨hu, hexecuted⟩ := hpost
  obtain ⟨t, ht⟩ := Option.ne_none_iff_exists'.mp hu
  apply (createTableHandler_fails hlib ht hm m.columnNames).imp (fun _ _ hfalse => hfalse)
  intro _ v hv
  obtain ⟨hv, l, hl, hdrop⟩ := hv
  exact ⟨hv, l, hexecuted ▸ hl, hdrop⟩

theorem insertHandler_fails (hlib : Documented lib Dead) (h : Useless Dead s) (table : Str)
    (values : List Str) : Ends (insertHandler lib table values) s (fun _ _ => False)
      fun _ u => Useless Dead u ∧ u.executed = s.executed := by
  cases hsql : insertCommand table values with
  | none =>
    rw [insertHandler, hsql]
    exact ends_error rfl ⟨h, rfl⟩
  | some sql =>
    rw [insertHandler]
    apply (orThrow_returns hsql).ends.bind
    intro _ _ hpost
    obtain ⟨rfl, rfl⟩ := hpost
    exact (exec0_dead hlib h _).bind fun _ _ hfalse => hfalse.elim

def Request.tables : Request → List Str
  | .setup m => [m.tableName]
  | _ => []

theorem answered_fails {x : ServerM T W PUnit} {bad : Server T W → Prop}
    (h : Ends x s (fun _ _ => False) fun _ u => bad u) :
    Ends (answered x) s (fun status u => status = .failedPrecondition ∧ bad u)
      fun _ u => bad u := by
  rcases h with ⟨_, _, _, hfalse⟩ | ⟨e, u, hrun, hbad⟩
  · exact hfalse.elim
  have hrun : x s = .error e u := hrun
  cases e with
  | undefinedBehaviour =>
    exact ends_error (e := .undefinedBehaviour) (by simp only [EStateM.run, answered, hrun]) hbad
  | pqxx e =>
    cases e with
    | sqlError =>
      exact ends_ok (by simp only [EStateM.run, answered, hrun]) ⟨rfl, hbad⟩
    | failure =>
      exact ends_error (e := .pqxx .failure) (by simp only [EStateM.run, answered, hrun]) hbad

theorem handle_fails (hlib : Documented lib Dead) (h : Useless Dead s) {request : Request}
    (hplain : ∀ table ∈ request.tables, 59 ∉ table) :
    Ends (request.handle lib) s
      (fun status u => status = .failedPrecondition ∧ Useless Dead u ∧ Dropped request.tables s u)
      fun _ u => Useless Dead u ∧ Dropped request.tables s u := by
  cases request with
  | setup m => exact answered_fails (setup_fails hlib h (hplain m.tableName List.mem_cons_self))
  | insert m =>
    apply answered_fails
    apply (insertHandler_fails hlib h m.table m.values).imp (fun _ _ hfalse => hfalse)
    intro _ u hu
    exact ⟨hu.1, dropped_of_eq hu.2⟩
  | select m =>
    apply answered_fails
    apply (exec_dead hlib h _).imp (fun _ _ hfalse => hfalse)
    intro _ u hu
    exact ⟨hu.1, dropped_of_eq hu.2⟩

theorem Dropped.trans {tables tables' : List Str} {u v : Server T W} (h : Dropped tables s u)
    (h' : Dropped tables' u v) : Dropped (tables ++ tables') s v := by
  obtain ⟨l, hl, hdrop⟩ := h
  obtain ⟨l', hl', hdrop'⟩ := h'
  refine ⟨l ++ l', ?_, ?_⟩
  · rw [hl', hl, List.append_assoc]
  · intro sql hsql
    rcases List.mem_append.mp hsql with hsql | hsql
    · obtain ⟨table, htable, rfl⟩ := hdrop sql hsql
      exact ⟨table, List.mem_append_left _ htable, rfl⟩
    · obtain ⟨table, htable, rfl⟩ := hdrop' sql hsql
      exact ⟨table, List.mem_append_right _ htable, rfl⟩

/-- No answer of a server that has not connected yet is ok, whatever is asked of it. The database
executes nothing but the statements that drop the tables that were to be set up. -/
theorem requests_fail (hlib : Documented lib Dead) (h : Useless Dead s) {requests : List Request}
    (hplain : ∀ request ∈ requests, ∀ table ∈ request.tables, 59 ∉ table) :
    (∀ answer ∈ (serve lib requests s).1, answer ≠ .ok .ok) ∧
      Dropped (requests.flatMap Request.tables) s (serve lib requests s).2 := by
  induction requests generalizing s with
  | nil => exact ⟨nofun, dropped_of_eq rfl⟩
  | cons request requests ih =>
    have hrest := fun u hu => ih (s := u) hu fun request' hin =>
      hplain request' (List.mem_cons_of_mem _ hin)
    rw [List.flatMap_cons]
    rcases handle_fails hlib h (hplain request List.mem_cons_self) with
      ⟨status, u, hrun, rfl, hu, hdropped⟩ | ⟨e, u, hrun, hu, hdropped⟩
    · have hrun : request.handle lib s = .ok .failedPrecondition u := hrun
      obtain ⟨hanswers, hafter⟩ := hrest u hu
      rw [serve, hrun]
      refine ⟨?_, hdropped.trans hafter⟩
      intro answer hanswer
      rcases List.mem_cons.mp hanswer with rfl | hanswer
      · exact nofun
      · exact hanswers answer hanswer
    · have hrun : request.handle lib s = .error e u := hrun
      cases e with
      | undefinedBehaviour =>
        rw [serve, hrun]
        refine ⟨?_, hdropped.trans (dropped_of_eq rfl)⟩
        intro answer hanswer
        rw [List.mem_singleton.mp hanswer]
        exact nofun
      | pqxx e =>
        obtain ⟨hanswers, hafter⟩ := hrest u hu
        rw [serve, hrun]
        refine ⟨?_, hdropped.trans hafter⟩
        intro answer hanswer
        rcases List.mem_cons.mp hanswer with rfl | hanswer
        · exact nofun
        · exact hanswers answer hanswer

def ready : Pqxx Bool Unit where
  connect _ _ w := (.ok false, w)
  exec closed _ w := if closed then (.threw .failure, true, w) else (.done, false, w)
  commit _ w := (none, true, w)

theorem ready_documented : Documented ready fun closed => closed = true where
  dead_of_threw t sql w e h := by
    cases t
    · cases h
    · rfl
  threw_of_dead t sql w h := by
    subst h
    exact ⟨.failure, rfl⟩
  commit_dead _ _ := rfl
  drop_no_rows t table w _ h := by cases t <;> cases h

def sampleRequests : List Request :=
  [.setup ⟨[], [116], [[107]]⟩, .insert ⟨[116], []⟩, .select ⟨[116], [[107]], [49]⟩]

theorem requests_fail_sample :
    (∀ answer ∈ (serve ready sampleRequests ⟨none, ⟨⟩, []⟩).1, answer ≠ .ok .ok) ∧
      Dropped [[116]] ⟨none, ⟨⟩, []⟩ (serve ready sampleRequests ⟨none, ⟨⟩, []⟩).2 := by
  have hplain : ∀ request ∈ sampleRequests, ∀ table ∈ request.tables, 59 ∉ table := by
    simp [sampleRequests, Request.tables]
  have hs : Useless (fun closed => closed = true) (⟨none, ⟨⟩, []⟩ : Server Bool Unit) := nofun
  exact requests_fail ready_documented hs hplain

end Connector
