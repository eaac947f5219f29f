import Reckoner.Store

/-!
# Worlds

A program holds tables, contexts and sessions, several of which may lead to the same table. A `World` is the store of
all these tables, with what the program holds: each thing has a number, which is how many of its kind were made before
it. A `Handle` names one of them and stands for a place (`World.place?`). A `Step` makes something, changes a table or
evaluates in one.
-/

namespace Reckoner

/-- One of the things that a program holds. -/
inductive Handle where
  | table (n : Nat)
  | context (n : Nat)
  | session (n : Nat)
deriving DecidableEq, Repr

inductive Step where
  /-- An empty table. -/
  | table
  /-- A table with the bindings that every program begins with. -/
  | globalTable
  /-- An empty table inside that of `h`. -/
  | childTable (h : Handle)
  /-- Another number for the table of `h`. -/
  | sameTable (h : Handle)
  /-- An outermost frame over the table of `h`. -/
  | context (h : Handle) (frameName : String)
  /-- A frame entered from context `n`, with an empty table inside that of the context. -/
  | childContext (n : Nat) (frameName : String) (entry : Option Position)
  | session (moduleName : String)
  | set (h : Handle) (name : String) (v : Value)
  | remove (h : Handle) (name : String)
  | run (h : Handle) (source : Source)
  | evaluate (h : Handle) (tree : Expr)

inductive Answer where
  | made (h : Handle)
  | done
  | removed (existed : Bool)
  | outcome (o : Outcome Value)
  /-- The handle names nothing. -/
  | unknown

structure World where
  store : Store := []
  /-- The tables of the store that the numbers of tables stand for. -/
  tables : List Nat := []
  contexts : List Place := []
  sessions : List Place := []

namespace World

/-- The place that a handle stands for. A text that is run against a table is run in a frame of its own. -/
def place? (w : World) : Handle → Option Place
  | .table n => w.tables[n]?.map (.root defaultModule)
  | .context n => w.contexts[n]?
  | .session n => w.sessions[n]?

/-- The value of a name in the table of `h`, or else in those around it. -/
def get? (w : World) (h : Handle) (name : String) : Option Value :=
  (w.place? h).bind fun p => w.store.get? p.table name

/-- The table of `h` without those around it. -/
def own (w : World) (h : Handle) : Table :=
  (w.place? h).elim ∅ fun p => w.store.own p.table

/-- A number for table `i` of the store. -/
def nameTable (w : World) (i : Nat) : Answer × World :=
  (.made (.table w.tables.length), { w with tables := w.tables ++ [i] })

def newTable (w : World) (c : Cell) : Answer × World :=
  { w with store := w.store.add c }.nameTable w.store.length

def newContext (w : World) (p : Place) : Answer × World :=
  (.made (.context w.contexts.length), { w with contexts := w.contexts ++ [p] })

def newSession (w : World) (moduleName : String) : Answer × World :=
  (.made (.session w.sessions.length),
    { w with store := w.store.add { table := Table.initial }
             sessions := w.sessions ++ [.root moduleName w.store.length] })

/-- What is done in the place of `h`, if it stands for one. -/
def inPlace (w : World) (h : Handle) (f : Place → Answer × World) : Answer × World :=
  match w.place? h with
  | some p => f p
  | none => (.unknown, w)

def step (w : World) : Step → Answer × World
  | .table => w.newTable { table := ∅ }
  | .globalTable => w.newTable { table := Table.initial }
  | .childTable h => w.inPlace h fun p => w.newTable { table := ∅, parent := some p.table }
  | .sameTable h => w.inPlace h fun p => w.nameTable p.table
  | .context h frameName => w.inPlace h fun p => w.newContext (.root frameName p.table)
  | .childContext n frameName entry =>
    w.inPlace (.context n) fun p =>
      let (q, store) := p.child w.store frameName entry
      { w with store }.newContext q
  | .session moduleName => w.newSession moduleName
  | .set h name v => w.inPlace h fun p => (.done, { w with store := w.store.insert p.table name v })
  | .remove h name =>
    w.inPlace h fun p =>
      (.removed ((w.store.own p.table).contains name), { w with store := w.store.erase p.table name })
  | .run h source =>
    w.inPlace h fun p =>
      let (r, store) := p.run w.store source
      (.outcome r.outcome, { w with store })
  | .evaluate h tree =>
    w.inPlace h fun p =>
      let (outcome, store) := p.evaluate w.store tree
      (.outcome outcome, { w with store })

/-- The world after a script. -/
def runAll (w : World) (script : List Step) : World :=
  script.foldl (fun w step => (w.step step).2) w

end World

end Reckoner
