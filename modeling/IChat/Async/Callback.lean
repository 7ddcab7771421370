import IChat.Async.Prog

/-!
# Callback bodies

A `Prog` ends when it answers. A `Body` is what it is written from: a tree of callbacks that may
call the completion handler anywhere, several times or never, and go on after it. `Body.run` follows
one body through the replies to its operations, whatever these are, and records what it did.
-/

namespace Async

/-- A body of callbacks: at its end, aborted by an exception, at a call of the completion handler,
or at an operation. -/
inductive Body (π ν ρ : Type) where
  | done
  | raise
  | complete (r : ρ) (next : Body π ν ρ)
  | read (p : π) (k : ν → Body π ν ρ)
  | write (p : π) (v : ν) (k : Bool → Body π ν ρ)

/-- The reply to an operation: a read is cancelled or delivers the value, a write fails or
succeeds. -/
structure Reply (ν : Type) where
  ok : Bool
  value : ν

/-- What a body did: the calls of its completion handler, the locations it wrote, and whether an
operation is pending. -/
structure Trace (π ρ : Type) where
  answers : List ρ
  written : List π
  pending : Bool

namespace Body

variable {π ν ρ ρ' : Type}

/-- The body as a client, which ends with its first answer. -/
def prog : Body π ν ρ → Prog π ν ρ
  | .done => .stop
  | .raise => .raise
  | .complete r _ => .ret r
  | .read p k => .read p fun v => (k v).prog
  | .write p v k => .write p v fun ok => (k ok).prog

/-- The body with its answers mapped. -/
def map (g : ρ → ρ') : Body π ν ρ → Body π ν ρ'
  | .done => .done
  | .raise => .raise
  | .complete r next => .complete (g r) (next.map g)
  | .read p k => .read p fun v => (k v).map g
  | .write p v k => .write p v fun ok => (k ok).map g

/-- What the body does with these replies to its operations, in order. A cancelled read runs none of
its callbacks. -/
def run : Body π ν ρ → List (Reply ν) → Trace π ρ
  | .done, _ => ⟨[], [], false⟩
  | .raise, _ => ⟨[], [], false⟩
  | .complete r next, replies =>
    let t := next.run replies
    { t with answers := r :: t.answers }
  | .read .., [] => ⟨[], [], true⟩
  | .read _ k, reply :: replies => if reply.ok then (k reply.value).run replies else ⟨[], [], false⟩
  | .write .., [] => ⟨[], [], true⟩
  | .write p _ k, reply :: replies =>
    if reply.ok then
      let t := (k true).run replies
      { t with written := p :: t.written }
    else (k false).run replies

theorem run_map (g : ρ → ρ') (b : Body π ν ρ) (replies : List (Reply ν)) :
    (b.map g).run replies =
      ⟨(b.run replies).answers.map g, (b.run replies).written, (b.run replies).pending⟩ := by
  induction b generalizing replies with
  | done => rfl
  | raise => rfl
  | complete r next ih => simp only [map, run, ih, List.map_cons]
  | read p k ih =>
    cases replies with
    | nil => rfl
    | cons reply replies =>
      cases hok : reply.ok with
      | false => simp only [map, run, hok, Bool.false_eq_true, ↓reduceIte, List.map_nil]
      | true => simp only [map, run, hok, ↓reduceIte, ih]
  | write p v k ih =>
    cases replies with
    | nil => rfl
    | cons reply replies =>
      cases hok : reply.ok with
      | false => simp only [map, run, hok, Bool.false_eq_true, ↓reduceIte, ih]
      | true => simp only [map, run, hok, ↓reduceIte, ih]

end Body

end Async
