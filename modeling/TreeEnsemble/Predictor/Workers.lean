/-!
How many workers share a task. A pool of threads is given by its size; the size of the machine's
own pool is a parameter, since no result may depend on it.
-/

namespace TreeEnsemble

inductive Parallelism where
  | sequential
  | parallel
  deriving DecidableEq

namespace Parallelism

def name : Parallelism → String
  | sequential => "Sequential"
  | parallel => "Parallel"

/-- What a demand for threads means in a pool: 1 thread is sequential, 0 threads are the pool. -/
def ofThreads (pool threads : Nat) : Parallelism :=
  if threads = 1 ∨ (threads = 0 ∧ pool = 1) then sequential else parallel

def isParallel : Parallelism → Bool
  | sequential => false
  | parallel => true

/-- The number of workers in a pool, at least one. -/
def workers (pool : Nat) : Parallelism → Nat
  | sequential => 1
  | parallel => max pool 1

/-- Applies a function to each item; the results keep the order of the items. -/
def map {α β : Type} (_ : Parallelism) (f : α → β) (items : List α) : List β := items.map f

end Parallelism

/-- Runs a task in a pool of the demanded size, or in the machine's pool. The task is told the
size of the pool it runs in. -/
def withThreads {α : Type} (machine threads : Nat) (task : Parallelism → (pool : Nat) → α) : α :=
  let parallelism := Parallelism.ofThreads machine threads
  match parallelism with
  | .sequential => task .sequential machine
  | .parallel => task .parallel (if threads = 0 then machine else threads)

end TreeEnsemble
