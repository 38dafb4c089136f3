import Mathlib.Data.List.Basic

/-!
Machines that read a stream symbol by symbol and may stop.

A stream reaches such a machine in chunks, and what it does may depend on the
symbols alone: the rules say that feeding chunk after chunk is feeding their
concatenation.
-/

namespace Tt3d.Feed

/-- What a symbol, or a list of them, does to a machine: it goes on from the next
state, or it stops with a result. -/
inductive Turn (σ ρ : Type*)
  | next (s : σ)
  | stop (r : ρ)
  deriving DecidableEq, Repr

variable {σ ρ α : Type*} (turn : σ → α → Turn σ ρ)

/-- Feed a list of symbols; a machine that stops leaves the rest unread. -/
def feed : σ → List α → Turn σ (ρ × List α)
  | s, [] => .next s
  | s, a :: as =>
      match turn s a with
      | .next s' => feed s' as
      | .stop r => .stop (r, as)

/-- Feed chunk after chunk. -/
def feedChunks : σ → List (List α) → Turn σ (ρ × List α)
  | s, [] => .next s
  | s, c :: cs =>
      match feed turn s c with
      | .next s' => feedChunks s' cs
      | .stop (r, rest) => .stop (r, rest ++ cs.flatten)

@[simp] theorem feed_nil (s : σ) : feed turn s [] = .next s := rfl

theorem feed_cons (s : σ) (a : α) (as : List α) :
    feed turn s (a :: as) =
      match turn s a with
      | .next s' => feed turn s' as
      | .stop r => .stop (r, as) := rfl

variable {turn}

theorem feed_cons_next {s s' : σ} {a : α} (h : turn s a = .next s') (as : List α) :
    feed turn s (a :: as) = feed turn s' as := by
  rw [feed_cons, h]

theorem feed_cons_stop {s : σ} {a : α} {r : ρ} (h : turn s a = .stop r) (as : List α) :
    feed turn s (a :: as) = .stop (r, as) := by
  rw [feed_cons, h]

theorem feed_append_next {s s' : σ} {as : List α} (h : feed turn s as = .next s') (bs : List α) :
    feed turn s (as ++ bs) = feed turn s' bs := by
  induction as generalizing s with
  | nil =>
      cases h
      rfl
  | cons a as ih =>
      rw [feed_cons] at h
      cases hturn : turn s a with
      | next t =>
          rw [hturn] at h
          rw [List.cons_append, feed_cons_next hturn]
          exact ih h
      | stop r =>
          rw [hturn] at h
          cases h

theorem feed_append_stop {s : σ} {as rest : List α} {r : ρ}
    (h : feed turn s as = .stop (r, rest)) (bs : List α) :
    feed turn s (as ++ bs) = .stop (r, rest ++ bs) := by
  induction as generalizing s with
  | nil => cases h
  | cons a as ih =>
      rw [feed_cons] at h
      cases hturn : turn s a with
      | next t =>
          rw [hturn] at h
          rw [List.cons_append, feed_cons_next hturn]
          exact ih h
      | stop r' =>
          rw [hturn] at h
          rw [List.cons_append, feed_cons_stop hturn]
          cases h
          rfl

/-- **Chunks do not matter.** -/
theorem feedChunks_eq (s : σ) (cs : List (List α)) :
    feedChunks turn s cs = feed turn s cs.flatten := by
  induction cs generalizing s with
  | nil => rfl
  | cons c cs ih =>
      rw [feedChunks, List.flatten_cons]
      cases h : feed turn s c with
      | next t =>
          rw [feed_append_next h]
          exact ih t
      | stop r => rw [feed_append_stop h]

end Tt3d.Feed
