import Mathlib.Algebra.Order.Ring.Int

/-!
# Runs of calls

A component takes calls one after the other. A specification says for an abstract state what each call returns and the
state after it. When every call keeps a relation between the two, a whole run returns what the specification returns
(`runCalls_eq`). `PageCall` are the calls of a reader that can be moved to a position.
-/
namespace Paro

variable {D S C E B : Type}

def runCalls (call : D → C → Except E (B × D)) (d : D) : List C → Except E (List B)
  | [] => .ok []
  | c :: calls =>
    match call d c with
    | .error e => .error e
    | .ok (out, next) => (runCalls call next calls).map (out :: ·)

def specCalls (spec : S → C → B × S) (s : S) : List C → List B
  | [] => []
  | c :: calls => (spec s c).1 :: specCalls spec (spec s c).2 calls

theorem runCalls_eq {call : D → C → Except E (B × D)} {spec : S → C → B × S} (Rel : D → S → Prop) (Allowed : C → Prop)
    (hstep : ∀ d s c, Rel d s → Allowed c → ∃ next, call d c = .ok ((spec s c).1, next) ∧ Rel next (spec s c).2)
    {d : D} {s : S} (h : Rel d s) {calls : List C} (hcalls : ∀ c ∈ calls, Allowed c) :
    runCalls call d calls = .ok (specCalls spec s calls) := by
  induction calls generalizing d s with
  | nil => rfl
  | cons c calls ih =>
    obtain ⟨next, hcall, hnext⟩ := hstep d s c h (hcalls c List.mem_cons_self)
    rw [runCalls, hcall]
    dsimp only
    rw [ih hnext fun c hc => hcalls c (List.mem_cons_of_mem _ hc)]
    rfl

inductive PageCall
  | seekToPosition (pos : Nat)
  | nextBatch (n : Nat)

def PageCall.InRange (count : Nat) : PageCall → Prop
  | .seekToPosition pos => pos ≤ count
  | .nextBatch _ => True

end Paro
