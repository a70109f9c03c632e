import TapeLang.Proofs.A64.Closing
import TapeLang.Proofs.Code.Follows

/-!
# Generated AArch64 code simulates the interpreter

The machine with generated code is a sound backend (`Machine.backend_sound`) whose places show in the
program counter; its exit and its stub return, and its entry goes on where it is told to.
-/

namespace TapeLang.A64

/-- What generated code relies on besides its arguments. -/
structure Environment.Suits (env : Environment) (options : CodeOptions) (code : Array UInt8) : Prop where
  host : env.host = options.host
  distinct : options.host.putByte ≠ options.host.outOfBounds
  outside : Machine.Outside env code

namespace Machine

variable {σ : Type} {env : Environment} {sink : Sink σ} {counting : Bool} {m₀ m : Machine σ}
  {s : Interpreter} {out : Array UInt8} {last : Nat} {p : Program} {code : Array UInt8}

/-! ### The backend -/

/-- Code for AArch64 that holds the pieces of a program. -/
def backend (env : Environment) (sink : Sink σ) (p : Program) (last : Nat) (counting : Bool)
    (code : Array UInt8) (m₀ : Machine σ) : Backend Op Branch (Machine σ) (Machine σ) where
  dialect := dialect last counting env.host
  sem := semantics env sink
  step := next env code sink
  place := place env ((dialect last counting env.host).listing p)
  offset := offsetAt ((dialect last counting env.host).listing p)
  counting
  Agrees := Holds env sink counting m₀
  Faulted := Faulted sink counting m₀
  Quiet m := ∀ ip < p.size, m.pc ≠ env.codeBase + UInt64.ofNat
    (offsetAt ((dialect last counting env.host).listing p) ((dialect last counting env.host).start p ip))

theorem once_listing (hp : p.Linked) (d : Dialect Op Branch) : Once (d.listing p) :=
  fun _ _ _ hj hk => Dialect.label_unique hp hj hk

/-- Offsets are lengths of code, so that they differ as words. -/
theorem offsetAt_lt {ps : List (Piece Op Branch Label)} (hout : Outside env code) (hasm : Assembled ps code)
    (k : Nat) : offsetAt ps k < 2 ^ 64 := by
  have hle := offsetAt_le ps k
  rw [← hasm.size] at hle
  exact Nat.lt_of_le_of_lt hle hout.size_lt

variable (sink) in
theorem backend_sound (hp : p.Linked) (hc : p.Compilable) (hout : Outside env code)
    (hasm : Assembled ((dialect last counting env.host).listing p) code) (hlast : last + 1 = m₀.tape.capacity) :
    (backend env sink p last counting code m₀).Sound p where
  linked := hp
  compilable := hc
  loaded := loaded sink (once_listing hp _) hout hasm
  realizes := realizes hlast
  quiet {k} _ h ip hip heq := h ip hip (add_ofNat_inj _ (offsetAt_lt hout hasm k) (offsetAt_lt hout hasm _) heq)

/-- Control stands at an offset of the code. -/
def stands (env : Environment) (offset : Nat) (m : Machine σ) : Prop :=
  m.pc = env.codeBase + UInt64.ofNat offset

theorem place_of_stands {ps : List (Piece Op Branch Label)} {k : Nat} (h : stands env (offsetAt ps k) m) :
    place env ps k m = m := by
  replace h : m.pc = env.codeBase + UInt64.ofNat (offsetAt ps k) := h
  show m.goto (env.codeBase + UInt64.ofNat (offsetAt ps k)) = m
  rw [← h]
  rfl

theorem backend_visible (hout : Outside env code)
    (hasm : Assembled ((dialect last counting env.host).listing p) code) :
    (backend env sink p last counting code m₀).Visible p (stands env) where
  stands_place _ _ := rfl
  place_of_stands h := place_of_stands h
  offset_inj {j k _} hj hk :=
    add_ofNat_inj env.codeBase (offsetAt_lt hout hasm j) (offsetAt_lt hout hasm k) (hj.symm.trans hk)
  agrees h := Holds.congr h rfl rfl rfl
  faulted {_ _ _ _ m} h :=
    { memory := h.memory
      framed := h.framed.congr (fun _ _ => rfl) (.refl m _)
      index := h.index }
  quiet h ip hip heq := h ip hip heq

/-- A return leaves control where the link register points. -/
theorem regOrSp_lr_of_ret {y t : Machine σ} (ht : y.executeOp env sink .ret = some t) : t.regOrSp lr = t.pc := by
  cases ht
  exact (reg_of_ne y (by decide)).symm

section Sound

variable (h : (backend env sink p last counting code m₀).Sound p) (hout : Outside env code)
  (hasm : Assembled ((dialect last counting env.host).listing p) code)
include h hout hasm

/-! ### Leaving -/

theorem quiet_of_returned {t : Machine σ} (ht : t.pc = env.returnAddress) :
    (backend env sink p last counting code m₀).Quiet t := by
  intro ip hip heq
  have hstart : offsetAt ((dialect last counting env.host).listing p) ((dialect last counting env.host).start p ip) <
      offsetAt ((dialect last counting env.host).listing p) ((dialect last counting env.host).start p (ip + 1)) :=
    h.offset_start_lt hip
  have hle := offsetAt_le ((dialect last counting env.host).listing p)
    ((dialect last counting env.host).start p (ip + 1))
  rw [← hasm.size] at hle
  have hlt := offsetAt_lt hout hasm ((dialect last counting env.host).start p ip)
  rw [ht] at heq
  rw [Outside, heq, toNat_add_ofNat_sub _ hlt] at hout
  omega

/-- The exit and the stub leave the return address in the link register. -/
theorem backend_closes_linked (hcalls : env.host.putByte ≠ env.host.outOfBounds)
    (hlr : m₀.regOrSp lr = env.returnAddress) :
    (backend env sink p last counting code m₀).Closes p
      (fun s out t => Exited env sink counting m₀ s out t ∧ t.regOrSp lr = m₀.regOrSp lr)
      (fun s out index t => Reported env sink counting m₀ s out index t ∧ t.regOrSp lr = m₀.regOrSp lr) := by
  constructor
  · intro s out x hx
    obtain ⟨y, hy, hret⟩ := Holds.exists_exit hx hlr
    refine h.exists_exit (exit_eq last counting env.host) hy fun j hj => ?_
    obtain ⟨t, ht, hexited⟩ := hret (env.codeBase + UInt64.ofNat (offsetAt _ (j + 1)))
    exact ⟨t, (next_op hout hasm hj y).trans ht, quiet_of_returned h hout hasm hexited.2.pc, if_pos hexited.2.pc,
      hexited, (regOrSp_lr_of_ret ht).trans (hexited.2.pc.trans hlr.symm)⟩
  · intro s out index x hx
    obtain ⟨y, hy, hret⟩ := Faulted.exists_report hx hcalls hlr
    refine h.exists_fault (fault_eq last counting env.host) hy fun j hj => ?_
    obtain ⟨t, ht, hreported⟩ := hret (env.codeBase + UInt64.ofNat (offsetAt _ (j + 1)))
    exact ⟨t, (next_op hout hasm hj y).trans ht, quiet_of_returned h hout hasm hreported.pc, if_pos hreported.pc,
      hreported, (regOrSp_lr_of_ret ht).trans (hreported.pc.trans hlr.symm)⟩

/-! ### Entering -/

/-- The entry goes on at the start of the instruction that is to be resumed. -/
theorem exists_trail_entry {ip : Nat}
    (hm : Entered env counting s (env.codeBase + UInt64.ofNat
      (offsetAt ((dialect last counting env.host).listing p) ((dialect last counting env.host).start p ip))) m₀) :
    ∃ n y, Trail (next env code sink) (backend env sink p last counting code m₀).Quiet n m₀
        (place env ((dialect last counting env.host).listing p) ((dialect last counting env.host).start p ip) y) ∧
      Holds env sink counting m₀ s #[] y := by
  obtain ⟨y, hy, hresume, hholds⟩ := exists_binding sink hm
  have hstart : place env ((dialect last counting env.host).listing p) 0 m₀ = m₀ := by
    unfold place
    rw [offsetAt_zero, show env.codeBase + UInt64.ofNat 0 = m₀.pc by rw [hm.pc]; exact UInt64.add_zero _]
    rfl
  obtain ⟨n, t, htrail, rfl⟩ := h.exists_entry
    (P := fun t => t =
      place env ((dialect last counting env.host).listing p) ((dialect last counting env.host).start p ip) y)
    (entry_eq last counting env.host) hy fun j hj => by
      refine ⟨_, (next_op hout hasm hj y).trans ?_, rfl⟩
      show some (y.goto (y.regOrSp 2)) = _
      rw [hresume]
      rfl
  rw [show (backend env sink p last counting code m₀).place 0 m₀ = m₀ from hstart] at htrail
  exact ⟨n, y, htrail, hholds⟩

end Sound

end Machine

/-! ### Generated code -/

variable {p : Program}

theorem generate_ok {options : CodeOptions} {r : Routine} (hp : p.Linked) (h : generate p options = .ok r) :
    ∃ last, last + 1 = options.capacity ∧ p.Compilable ∧
      Assembled ((dialect last options.counting options.host).listing p) r.code ∧ r.offsets.size = p.size ∧
      ∀ ip < p.size, r.offsets[ip]? = some (offsetAt ((dialect last options.counting options.host).listing p)
        ((dialect last options.counting options.host).start p ip)) := by
  rw [generate] at h
  split at h
  · cases h
  · rename_i hcapacity
    obtain ⟨last, hlast⟩ : ∃ last, last = options.capacity - 1 := ⟨_, rfl⟩
    rw [← hlast] at h
    cases hroutine : (dialect last options.counting options.host).routine p with
    | error e => rw [hroutine] at h; cases h
    | ok ps =>
      rw [hroutine] at h
      obtain ⟨hcompilable, rfl⟩ := (Dialect.routine_eq_ok_iff _ hp).1 hroutine
      replace h : Except.mapError Error.assembly (assemble (reportNumber p)
        ((dialect last options.counting options.host).listing p).toArray (instructionLabels p)) = .ok r := h
      cases hassemble : assemble (reportNumber p) ((dialect last options.counting options.host).listing p).toArray
          (instructionLabels p) with
      | error e => rw [hassemble] at h; cases h
      | ok r' =>
        rw [hassemble] at h
        cases h
        obtain ⟨hasm, hsize, hoffset⟩ := assembled_of_assemble (Machine.once_listing hp _) hassemble
        refine ⟨last, by omega, hcompilable, hasm, by simpa [instructionLabels] using hsize, ?_⟩
        intro ip hip
        obtain ⟨k, hk, hget⟩ := hoffset ip (.instruction ip) (by
          rw [instructionLabels, Array.getElem?_map, Array.getElem?_range, if_pos hip]
          rfl)
        rw [hget, show k = _ from Dialect.label_place hk]

end TapeLang.A64
