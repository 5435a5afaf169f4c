import AgentVeil.Detector.Tokens
import AgentVeil.Engine
import AgentVeil.Ledger.Lemmas.Reveal
import AgentVeil.Rust.Splice
import Mathlib.Data.List.Induction

/-!
# Restoration

The restorer replaces its candidates from the last to the first. Tokens are in brackets, so that no two
candidates overlap, and the loop comes to one simultaneous substitution.
-/

namespace AgentVeil

open Rust
open Rust.Regex (Derives Matches Separates findIter)

/-- The token pattern looks at a token only, and tokens in a text are the same or apart. -/
theorem separates_tokenPattern : Separates tokenPattern where
  nonEmpty := nonEmpty_tokenPattern
  free h := fun _ _ => derives_tokenPattern.mpr (derives_tokenPattern.mp h)
  apart ht ht' h := (token_cases (ht [] [])).1.apart (token_cases (ht' [] [])).1 h

/-- A candidate of the restorer. -/
abbrev IsCandidate (t : Str) : Prop := Matches tokenPattern t

namespace PrivacyEngine

variable {R : Type}

/-- The loop replaces every part of a splice whose parts are its candidates. -/
theorem restoreMatches_splice {α : Type} {w : α → Str} {scope : SessionScope} {now : Nat}
    {ps : List (Str × α)} {ms : List Match} {last : Str} {ledger : TokenLedger R}
    (found : ms.map (fun m => (m.before.reverse, m.text)) = places w [] ps) :
    (restoreMatches scope now ms.reverse (splice w ps last) ledger).1
      = some (splice (fun a => ledger.reveal scope now (w a)) ps last) := by
  induction ps using List.reverseRecOn generalizing ms last ledger with
  | nil =>
      rw [List.map_eq_nil_iff.mp found]
      rfl
  | append_singleton ps p ih =>
      obtain ⟨gap, a⟩ := p
      rw [places_concat] at found
      obtain ⟨ms, mi, rfl, hms, hmi⟩ := List.map_eq_append_iff.mp found
      obtain ⟨m, rfl, hm⟩ := List.map_eq_singleton_iff.mp hmi
      obtain ⟨hbefore, htext⟩ := Prod.mk.inj hm
      rw [List.nil_append] at hbefore
      have hrange : m.range = ⟨len (splice w ps gap), len (splice w ps gap) + len (w a)⟩ := by
        rw [Part.range, Part.start, ← len_reverse, hbefore, htext]
      have hreplace : ∀ value, replaceRange? (splice w ps gap ++ w a ++ last) m.range value
          = some (splice w ps gap ++ value ++ last) := fun value =>
        replaceRange?_append (by rw [hrange]) (by rw [hrange])
      have ih : (restoreMatches scope now ms.reverse
          (splice w ps (gap ++ ledger.reveal scope now (w a) ++ last))
          (ledger.restoreExact scope (w a) now).2).1
            = some (splice (fun b => (ledger.restoreExact scope (w a) now).2.reveal scope now (w b)) ps
                (gap ++ ledger.reveal scope now (w a) ++ last)) := ih hms
      simp only [TokenLedger.reveal_restoreExact] at ih
      rw [List.reverse_append, List.reverse_singleton, List.singleton_append, restoreMatches, htext,
        splice_concat, splice_concat, ← ih]
      cases hr : ledger.restoreExact scope (w a) now with
      | mk value ledger' =>
          cases value with
          | none =>
              have hrev : ledger.reveal scope now (w a) = w a := by
                rw [TokenLedger.reveal, hr]
                rfl
              rw [hrev]
          | some value =>
              have hrev : ledger.reveal scope now (w a) = value := by
                rw [TokenLedger.reveal, hr]
                rfl
              simp only [hrev, splice_append, hreplace]

/-- What is unexpired at the time of a restoration means the same after it. -/
theorem maps_restoreMatches {scope scope' : SessionScope} {now later : Nat} {ms : List Match}
    {text : Str} {ledger : TokenLedger R} {t : Token} {v : Str} (le : now ≤ later) :
    (restoreMatches scope now ms text ledger).2.Maps scope' t v later ↔
      ledger.Maps scope' t v later := by
  induction ms generalizing text ledger with
  | nil => exact Iff.rfl
  | cons m ms ih =>
      have hone : (ledger.restoreExact scope m.text now).2.Maps scope' t v later ↔
          ledger.Maps scope' t v later := TokenLedger.maps_restoreExact le
      unfold restoreMatches
      generalize ledger.restoreExact scope m.text now = r at hone
      obtain ⟨value, ledger'⟩ := r
      cases value with
      | none => exact ih.trans hone
      | some value =>
          simp only
          cases replaceRange? text m.range value with
          | none => exact hone
          | some restored => exact ih.trans hone

/-- The text between the candidates, and the candidates, of a text. -/
theorem exists_candidates (text : Str) : ∃ ps last, text = splice id ps last ∧
    (∀ p ∈ ps, Free IsCandidate p.1 ∧ IsCandidate p.2) ∧ Free IsCandidate last ∧
    ∀ {scope : SessionScope} {now : Nat} {engine : PrivacyEngine R},
      (engine.restoreDisplayText scope text now).1
        = some (splice (engine.ledger.reveal scope now) ps last) := by
  obtain ⟨ps, last, hsplice, hparts, hlast, hfound⟩ := separates_tokenPattern.exists_splice text
  refine ⟨ps, last, hsplice.symm, hparts, hlast, ?_⟩
  intro scope now engine
  have h := @restoreMatches_splice _ _ _ scope now _ _ last engine.ledger hfound
  rw [hsplice] at h
  exact h

/-- Restoration is one simultaneous substitution, in any text and whatever the ledger holds, and it never
panics. Exactly the candidates of the text are replaced, each by the value it stands for, or else by
itself; the text between them stays; and no token means anything else afterwards. -/
theorem restoreDisplayText_substitutes (engine : PrivacyEngine R) (scope : SessionScope) (text : Str)
    (now : Nat) :
    (∃ ps last, text = splice id ps last ∧ (∀ p ∈ ps, Free IsCandidate p.1 ∧ IsCandidate p.2) ∧
      Free IsCandidate last ∧
      (engine.restoreDisplayText scope text now).1
        = some (splice (engine.ledger.reveal scope now) ps last)) ∧
    (∀ t, (∃ v, engine.ledger.Maps scope t v now ∧ engine.ledger.reveal scope now t = v) ∨
      (∀ v, ¬engine.ledger.Maps scope t v now) ∧ engine.ledger.reveal scope now t = t) ∧
    ∀ scope' t v later, now ≤ later →
      ((engine.restoreDisplayText scope text now).2.ledger.Maps scope' t v later ↔
        engine.ledger.Maps scope' t v later) := by
  refine ⟨?_, engine.ledger.reveal_cases scope now, fun scope' t v later le => ?_⟩
  · obtain ⟨ps, last, hsplice, hparts, hlast, hrestore⟩ := @exists_candidates R text
    exact ⟨ps, last, hsplice, hparts, hlast, hrestore⟩
  · exact maps_restoreMatches le

end PrivacyEngine

end AgentVeil
