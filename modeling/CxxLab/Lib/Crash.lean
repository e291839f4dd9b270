import Mathlib.Data.List.Basic
import Mathlib.Tactic

/-!
# Crashes between and within writes

A program issues writes in order; a crash leaves the device after some of them, and of the next
write possibly a part. `CrashPoint` says which devices a crash can leave behind. What holds at
every crash point of two lists of writes, one after the other, holds at every crash point of the
whole: so a call is taken apart into its writes.
-/

namespace CxxLab.Crash

variable {D W : Type*} {apply : D → W → D} {torn : W → W → Prop}

/-- The devices that a crash can leave of `d` while the writes are issued: `torn w w'` says that
`w'` is a part of the write `w`. -/
inductive CrashPoint (apply : D → W → D) (torn : W → W → Prop) : D → List W → D → Prop
  /-- The crash comes before the next write. -/
  | stop (d : D) (ws : List W) : CrashPoint apply torn d ws d
  /-- The crash comes within the next write. -/
  | cut {d : D} {w w' : W} {ws : List W} (h : torn w w') :
    CrashPoint apply torn d (w :: ws) (apply d w')
  /-- The crash comes after the next write. -/
  | next {d d' : D} {w : W} {ws : List W} (h : CrashPoint apply torn (apply d w) ws d') :
    CrashPoint apply torn d (w :: ws) d'

/-- A crash while nothing is written. -/
theorem crashPoint_nil {d d' : D} (h : CrashPoint apply torn d [] d') : d' = d := by
  cases h
  rfl

/-- A crash comes in the first writes or in those that follow. -/
theorem crashPoint_append {d d' : D} {ws vs : List W}
    (h : CrashPoint apply torn d (ws ++ vs) d') :
    CrashPoint apply torn d ws d' ∨ CrashPoint apply torn (ws.foldl apply d) vs d' := by
  induction ws generalizing d with
  | nil => exact .inr h
  | cons w ws ih =>
    cases h with
    | stop => exact .inl (.stop _ _)
    | cut ht => exact .inl (.cut ht)
    | next h =>
      rcases ih h with h | h
      · exact .inl (.next h)
      · exact .inr h

/-- What holds after the writes, whatever the crash. -/
def Safe (apply : D → W → D) (torn : W → W → Prop) (P : D → Prop) (d : D) (ws : List W) : Prop :=
  ∀ d', CrashPoint apply torn d ws d' → P d'

/-- What is safe for a property is safe for one that follows from it. -/
theorem Safe.mono {P Q : D → Prop} {d : D} {ws : List W} (h : Safe apply torn P d ws)
    (hPQ : ∀ d, P d → Q d) : Safe apply torn Q d ws :=
  fun d' hd => hPQ d' (h d' hd)

/-- With nothing left to write, the state itself is what a crash leaves. -/
theorem safe_nil {P : D → Prop} {d : D} (h : P d) : Safe apply torn P d [] :=
  fun _ hd => crashPoint_nil hd ▸ h

/-- Writes that are safe one after the other. -/
theorem Safe.append {P : D → Prop} {d : D} {ws vs : List W} (h1 : Safe apply torn P d ws)
    (h2 : Safe apply torn P (ws.foldl apply d) vs) : Safe apply torn P d (ws ++ vs) :=
  fun d' hd => (crashPoint_append hd).elim (h1 d') (h2 d')

/-- One write is safe when nothing, a part and the whole of it are. -/
theorem safe_single {P : D → Prop} {d : D} {w : W} (h0 : P d) (h1 : ∀ w', torn w w' → P (apply d w'))
    (h2 : P (apply d w)) : Safe apply torn P d [w] := by
  intro d' hd
  cases hd with
  | stop => exact h0
  | cut ht => exact h1 _ ht
  | next h => exact crashPoint_nil h ▸ h2

end CxxLab.Crash
