import TapeLang.Proofs.Code.Run
import TapeLang.Proofs.Emission

/-!
# Logs on runs of translated programs

A machine keeps a log that only grows. At the start of every instruction, and in the end, it is what is
kept of the bytes that the interpreter has written by then (`Backend.Records`). An instruction writes one
byte at most, so in between the log is what it was before the instruction or what it is behind it
(`eq_or_eq_of_growing`), and the logs on a run of the machine are those of the states that the interpreter
reaches (`Backend.Sound.log_iff`).
-/

namespace TapeLang

section Growing

variable {S α : Type} {step : S → Option S} {log : S → List α} {n : Nat} {s t u : S}

variable (log) in
theorem prefix_of_advance (hgrows : ∀ {s t}, step s = some t → log s <+: log t) (h : advance step n s = some t) :
    log s <+: log t := by
  induction n generalizing s with
  | zero =>
    cases h
    exact List.prefix_rfl
  | succ n ih =>
    rw [advance] at h
    obtain ⟨s₁, hs, h⟩ := Option.bind_eq_some_iff.1 h
    exact (hgrows hs).trans (ih h)

/-- Where a log becomes longer by one entry at most, it is one of the two in between. -/
theorem eq_or_eq_of_growing (hgrows : ∀ {s t}, step s = some t → log s <+: log t) (h : advance step n s = some t)
    (hlast : log t = log s ∨ ∃ a, log t = log s ++ [a]) {k : Nat} (hu : advance step k s = some u) (hk : k ≤ n) :
    log u = log s ∨ log u = log t := by
  have hbefore := prefix_of_advance log hgrows hu
  rw [advance_of_advance hu hk] at h
  have hbehind := prefix_of_advance log hgrows h
  rcases hlast with heq | ⟨a, heq⟩
  · rw [heq] at hbehind
    exact .inl (hbehind.eq_of_length_le hbefore.length_le)
  · rw [heq, List.prefix_concat_iff, ← heq] at hbehind
    rcases hbehind with hbehind | hbehind
    · exact .inr hbehind
    · exact .inl (hbehind.eq_of_length_le hbefore.length_le)

end Growing

/-- In the end the bytes begin with those of every state on the way. -/
theorem Interpreter.prefix_of_last {p : Program} {m m' m₁ : Interpreter} {bytes bytes' : Array UInt8} {n k : Nat}
    (hn : advance (next p Sink.buffer) n (m, #[]) = some (m', bytes))
    (hlast : next p Sink.buffer (m', bytes) = none)
    (hk : advance (next p Sink.buffer) k (m, #[]) = some (m₁, bytes')) : bytes'.toList <+: bytes.toList := by
  have hgrows {x y : Interpreter × Array UInt8} (h : next p Sink.buffer x = some y) : x.2.toList <+: y.2.toList := by
    rcases next_buffer_eq_some_iff.1 h with ⟨_, heq⟩ | ⟨b, _, heq⟩
    · exact heq ▸ List.prefix_rfl
    · rw [heq, Array.toList_push]
      exact List.prefix_append _ _
  rw [advance_of_advance hk (le_of_advance_of_none hn hlast hk)] at hn
  exact prefix_of_advance (fun x : Interpreter × Array UInt8 => x.2.toList) hgrows hn

namespace Backend

variable {ω β D S : Type} {T : Backend ω β D S} {p : Program} {s s' : Interpreter} {out out' : Array UInt8} {m : S}
  {Exited : Interpreter → Array UInt8 → S → Prop} {Reported : Interpreter → Array UInt8 → UInt64 → S → Prop}
  {log : S → List UInt8} {kept : Array UInt8 → List UInt8}

/-- The machine keeps a log of what is `kept` of the bytes that are written. -/
structure Records (T : Backend ω β D S) (Exited : Interpreter → Array UInt8 → S → Prop)
    (Reported : Interpreter → Array UInt8 → UInt64 → S → Prop) (log : S → List UInt8)
    (kept : Array UInt8 → List UInt8) : Prop where
  grows {m m' : S} (h : T.step m = some m') : log m <+: log m'
  push (out : Array UInt8) (b : UInt8) :
    kept (out.push b) = kept out ∨ ∃ c, kept (out.push b) = kept out ++ [c]
  agrees {s : Interpreter} {out : Array UInt8} {x : D} (h : T.Agrees s out x) (k : Nat) :
    log (T.place k x) = kept out
  exited {s : Interpreter} {out : Array UInt8} {t : S} (h : Exited s out t) : log t = kept out
  reported {s : Interpreter} {out : Array UInt8} {index : UInt64} {t : S} (h : Reported s out index t) :
    log t = kept out

namespace Records

theorem boundary (hr : T.Records Exited Reported log kept) (hb : T.Boundary p s out m) : log m = kept out := by
  obtain ⟨_, _, x, rfl, hx⟩ := hb
  exact hr.agrees hx _

/-- What a step of the interpreter makes of what is kept. -/
theorem kept_of_next (hr : T.Records Exited Reported log kept)
    (h : Interpreter.next p Sink.buffer (s, out) = some (s', out')) :
    kept out' = kept out ∨ ∃ c, kept out' = kept out ++ [c] := by
  rcases Interpreter.next_buffer_eq_some_iff.1 h with ⟨_, rfl⟩ | ⟨b, _, rfl⟩
  · exact .inl rfl
  · exact hr.push out b

end Records

namespace Sound

/-- From an instruction to the end without another one, the log stays as it is. -/
theorem log_eq_of_last (hr : T.Records Exited Reported log kept) {n k : Nat} {t u : S} (hm : log m = kept out)
    (h : advance T.step n m = some t) (hlast : T.step t = none) (ht : log t = kept out)
    (hu : advance T.step k m = some u) : log u = kept out := by
  have hk := le_of_advance_of_none h hlast hu
  rcases eq_or_eq_of_growing hr.grows h (.inl (ht.trans hm.symm)) hu hk with heq | heq
  · exact heq.trans hm
  · exact heq.trans ht

/-- At all times the log is what is kept in a state that the interpreter reaches. -/
theorem exists_kept (h : T.Sound p) (hc : T.Closes p Exited Reported) (hr : T.Records Exited Reported log kept)
    (hb : T.Boundary p s out m) {n : Nat} {u : S} (hu : advance T.step n m = some u) :
    ∃ k s' out', advance (Interpreter.next p Sink.buffer) k (s, out) = some (s', out') ∧ log u = kept out' := by
  induction n using Nat.strongRecOn generalizing s out m with
  | ind n ih =>
    have hm := hr.boundary hb
    rcases Nat.lt_or_ge s.cursor.ip p.size with hip | hip
    · rcases h.step hb hip with ⟨s₁, out₁, hstep, n₁, m₁, hn₁, htrail, hb₁⟩ | ⟨_, _, n₁, m₁, _, _, htrail, hfault⟩
      · have hnext := Interpreter.next_of_step hstep
        rcases Nat.lt_or_ge n n₁ with hlt | hge
        · have hm₁ := hr.boundary hb₁
          have hkept := hr.kept_of_next hnext
          rw [← hm, ← hm₁] at hkept
          rcases eq_or_eq_of_growing hr.grows htrail.advance hkept hu (Nat.le_of_lt hlt) with heq | heq
          · exact ⟨0, s, out, rfl, heq.trans hm⟩
          · exact ⟨1, s₁, out₁, (advance_succ hnext 0).trans rfl, heq.trans hm₁⟩
        · rw [advance_of_advance htrail.advance hge] at hu
          obtain ⟨k, s', out', hk, heq⟩ := ih (n - n₁) (by omega) hb₁ hu
          exact ⟨k + 1, s', out', (advance_succ hnext k).trans hk, heq⟩
      · obtain ⟨_, _, _, _, _, rfl, hx⟩ := hfault
        obtain ⟨n₂, t, hclose, _, hlast, hreported⟩ := hc.fault hx
        have hrun : advance T.step (n₁ + n₂) m = some t := advance_trans htrail.advance hclose.advance
        exact ⟨0, s, out, rfl, log_eq_of_last hr hm hrun hlast (hr.reported hreported) hu⟩
    · obtain ⟨_, hle, x, rfl, hx⟩ := hb
      obtain ⟨_, t, hclose, _, hlast, hexited⟩ := hc.exit hx
      rw [Nat.le_antisymm hle hip] at hu hm
      exact ⟨0, s, out, rfl, log_eq_of_last hr hm hclose.advance hlast (hr.exited hexited) hu⟩

/-- The logs on a run are those of the states that the interpreter reaches. -/
theorem log_iff (h : T.Sound p) (hc : T.Closes p Exited Reported) (hr : T.Records Exited Reported log kept)
    {n₀ : Nat} {m₀ : S} (henter : advance T.step n₀ m₀ = some m) (hm₀ : log m₀ = kept out)
    (hb : T.Boundary p s out m) {l : List UInt8} :
    (∃ n u, advance T.step n m₀ = some u ∧ log u = l) ↔
      ∃ k s' out', advance (Interpreter.next p Sink.buffer) k (s, out) = some (s', out') ∧ l = kept out' := by
  have hm := hr.boundary hb
  constructor
  · rintro ⟨n, u, hu, rfl⟩
    rcases Nat.le_total n n₀ with hle | hge
    · rcases eq_or_eq_of_growing hr.grows henter (.inl (hm.trans hm₀.symm)) hu hle with heq | heq
      · exact ⟨0, s, out, rfl, heq.trans hm₀⟩
      · exact ⟨0, s, out, rfl, heq.trans hm⟩
    · rw [advance_of_advance henter hge] at hu
      exact h.exists_kept hc hr hb hu
  · rintro ⟨k, s', out', hk, rfl⟩
    obtain ⟨n, u, _, hu, hb'⟩ := h.reaches hb hk
    exact ⟨n₀ + n, u, advance_trans henter hu, hr.boundary hb'⟩

end Sound

end Backend

end TapeLang
