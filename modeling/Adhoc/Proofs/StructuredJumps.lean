import Adhoc.Proofs.Compilation
import Adhoc.Proofs.LayoutTree

namespace Adhoc

open Emit

/-- Every statement is laid out, also in the files that are included to the given depth. -/
theorem Stmt.isLaid (cx : Context) (folder : Option String) (depth : Nat) (s : Stmt) :
    s.IsLaid (cx.atDepth depth) folder := by
  induction depth generalizing s with
  | zero =>
    refine Stmt.holds Expr.isLaid_of_parts (Stmt.isLaid_of_parts fun path program _ _ => ?_) s
    intro s a t _ h
    cases h
  | succ depth ih =>
    refine Stmt.holds Expr.isLaid_of_parts (Stmt.isLaid_of_parts fun path program _ hq => ?_) s
    have hlaid : ∀ s ∈ program.body, StmtLaid (cx.library folder) cx.version s
        (s.code (cx.atDepth depth)) := fun s hs => by
      simpa [Stmt.Laid] using ih s (by simpa using hq s hs)
    exact runAll_lays (stmtCodes_forall₂ hlaid)

theorem Program.code_lays {o : Options} {sources : Sources} {p : Program} (depth : Nat)
    (hq : ∀ s ∈ p.body, QuietUpdates (o.library sources) o.version (.stmt s)) :
    Lays (o.library sources) o.version (p.body.map .stmt) (p.code (o.context sources depth)) := by
  have hlaid : ∀ s ∈ p.body, StmtLaid (o.library sources) o.version s
      (s.code (o.context sources depth)) := by
    intro s hs
    have h : s.IsLaid (o.context sources depth) o.includeFolder := Stmt.isLaid _ _ depth s
    rw [Stmt.IsLaid, Stmt.Laid, Options.library_context, Options.version_context] at h
    exact h (hq s hs)
  have hbody := body_lays o.logsExceptions (stmtCodes_forall₂ hlaid)
  intro s _ t hs h
  simp only [Program.code_context, bind_ok] at h
  obtain ⟨_, r1, h1, _, r2, h2, _, r3, h3, h4⟩ := h
  have ho := pushScope_opens h1
  have pscope := Tiles.scope hs rfl ho (hbody (ho.ready hs) h2) h3
  simpa using pscope.step hs (.straight setExit_straight) h4

def Part.isContinue : Part → Bool
  | .stmt (.continueLoop ..) => true
  | _ => false

def Part.isInclude : Part → Bool
  | .stmt (.includeFile ..) => true
  | _ => false

def Part.update? : Part → Option Expr
  | .stmt (.forLoop _ _ _ update _) => update
  | _ => none

/-- Neither a `continue` nor an include is found in the frame, down to the given depth of nesting. -/
def Part.isSilent (v : Version) : Nat → Part → Bool
  | 0, _ => false
  | n + 1, p => !p.isContinue && !p.isInclude && (p.parts v).all (isSilent v n)

/-- All updates are silent, and nothing is included. -/
def Part.hasQuietUpdates (v : Version) : Nat → Part → Bool
  | 0, _ => false
  | n + 1, p => !p.isInclude && (p.update?.all fun e => isSilent v n (.expr e)) &&
    (p.parts v).all (hasQuietUpdates v n) && p.body?.all fun b => hasQuietUpdates v n b.part

section

variable {lib : Library} {v : Version}

theorem not_continues_of_isSilent {n : Nat} {p : Part} (h : p.isSilent v n = true) :
    ¬ Continues lib v p := by
  induction n generalizing p with
  | zero => cases h
  | succ n ih =>
    simp only [Part.isSilent, Bool.and_eq_true, List.all_eq_true] at h
    intro hp
    cases hp with
    | here => cases h.1.1
    | included => cases h.1.2
    | part hq hc => exact ih (h.2 _ hq) hc

theorem QuietUpdates.of_check {n : Nat} {p : Part} (h : p.hasQuietUpdates v n = true) :
    QuietUpdates lib v p := by
  induction n generalizing p with
  | zero => cases h
  | succ n ih =>
    simp only [Part.hasQuietUpdates, Bool.and_eq_true, List.all_eq_true] at h
    obtain ⟨⟨⟨hi, hu⟩, hp⟩, hb⟩ := h
    intro loc init test update body ho
    cases ho with
    | here => exact not_continues_of_isSilent hu
    | part hq ho => exact ih (hp _ hq) ho
    | body _ hn ho => exact ih (by simpa [hn] using hb) ho
    | included => cases hi

end

end Adhoc
