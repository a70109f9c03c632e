import TapeLang.Proofs.Code.Follows
import TapeLang.Proofs.X86.Closing

/-!
# Generated x86-64 code simulates the interpreter

Wherever a run of generated code stands at the start of an instruction, the machine holds a state
that the interpreter reaches; from there it goes on as the interpreter does, to the next instruction,
to the exit or to the stub (`Follows`, `generate_follows`).
-/

namespace TapeLang.X86

/-- What generated code relies on besides its arguments. -/
structure Environment.Suits (env : Environment) (options : CodeOptions) (code : Array UInt8) : Prop where
  host : env.host = options.host
  distinct : options.host.putByte ≠ options.host.outOfBounds
  outside : Machine.Outside env code

namespace Machine

variable {σ : Type} {env : Environment} {sink : Sink σ} {counting : Bool} {m₀ m : Machine σ}
  {s : Interpreter} {out : Array UInt8} {last : Int32} {p : Program} {code : Array UInt8} {offset : Nat → Nat}

/-! ### The backend -/

/-- Code for x86-64 that holds the pieces of a program at offsets. -/
def backend (env : Environment) (sink : Sink σ) (p : Program) (last : Int32) (counting : Bool)
    (code : Array UInt8) (offset : Nat → Nat) (m₀ : Machine σ) : Backend Op Branch (Machine σ) (Machine σ) where
  dialect := dialect last counting env.host
  sem := semantics env sink
  step := next env code sink
  place := place env offset
  offset
  counting
  Agrees := Holds env sink counting m₀
  Faulted := Faulted sink counting m₀
  Quiet m := ∀ ip < p.size,
    m.rip ≠ env.codeBase + UInt64.ofNat (offset ((dialect last counting env.host).start p ip))

variable (sink) in
theorem backend_sound (hp : p.Linked) (hc : p.Compilable) (hout : Outside env code)
    (hasm : Assembled ((dialect last counting env.host).listing p) code offset)
    (hlast : lastIndex? m₀.tape.capacity = some last) :
    (backend env sink p last counting code offset m₀).Sound p where
  linked := hp
  compilable := hc
  loaded := loaded sink hout hasm
  realizes := realizes hlast
  quiet {k} x h ip hip heq := by
    have hlt := hout.size_lt
    have hk := hasm.le k
    have hstart := hasm.le ((dialect last counting env.host).start p ip)
    exact h ip hip (add_ofNat_inj _ (Nat.lt_of_le_of_lt hk hlt) (Nat.lt_of_le_of_lt hstart hlt) heq)

/-- Control stands at an offset of the code. -/
def stands (env : Environment) (offset : Nat) (m : Machine σ) : Prop :=
  m.rip = env.codeBase + UInt64.ofNat offset

theorem place_of_stands {k : Nat} (h : stands env (offset k) m) : place env offset k m = m := by
  replace h : m.rip = env.codeBase + UInt64.ofNat (offset k) := h
  show m.goto (env.codeBase + UInt64.ofNat (offset k)) = m
  rw [← h]
  rfl

theorem backend_visible (hout : Outside env code)
    (hasm : Assembled ((dialect last counting env.host).listing p) code offset) :
    (backend env sink p last counting code offset m₀).Visible p (stands env) where
  stands_place k m := rfl
  place_of_stands h := place_of_stands h
  offset_inj {j k m} hj hk := by
    have hlt := hout.size_lt
    exact add_ofNat_inj env.codeBase (Nat.lt_of_le_of_lt (hasm.le j) hlt) (Nat.lt_of_le_of_lt (hasm.le k) hlt)
      (hj.symm.trans hk)
  agrees {s out k m} h := Holds.congr h (fun _ _ => rfl) rfl rfl
  faulted {s out index k m} h :=
    { memory := h.memory
      framed := h.framed.congr (fun _ _ => rfl) rfl
      index := h.index }
  quiet {m} h ip hip heq := h ip hip heq

section Sound

variable (h : (backend env sink p last counting code offset m₀).Sound p) (hout : Outside env code)
  (hasm : Assembled ((dialect last counting env.host).listing p) code offset)
include h hout hasm

/-! ### Leaving -/

theorem quiet_of_returned {t : Machine σ} (ht : t.rip = env.returnAddress) :
    (backend env sink p last counting code offset m₀).Quiet t := by
  intro ip hip heq
  have hlt := hout.size_lt
  have hstart : offset ((dialect last counting env.host).start p ip) <
      offset ((dialect last counting env.host).start p (ip + 1)) := h.offset_start_lt hip
  have hle := hasm.le ((dialect last counting env.host).start p (ip + 1))
  rw [ht] at heq
  rw [Outside, heq, toNat_add_ofNat_sub _ (by omega)] at hout
  omega

theorem backend_closes (hcalls : env.host.putByte ≠ env.host.outOfBounds)
    (htop : m₀.liveStack.head? = some (m₀.reg .rsp, env.returnAddress)) :
    (backend env sink p last counting code offset m₀).Closes p
      (Exited env sink counting m₀) (Reported env sink counting m₀) := by
  constructor
  · intro s out x hx
    obtain ⟨y, hy, hret⟩ := Holds.exists_exit hx htop
    refine h.exists_exit (exit_eq last counting env.host) hy fun j hj => ?_
    obtain ⟨t, ht, hexited⟩ := hret (env.codeBase + UInt64.ofNat (offset (j + 1)))
    exact ⟨t, (next_op hout hasm hj y).trans ht, quiet_of_returned h hout hasm hexited.2.rip, if_pos hexited.2.rip,
      hexited⟩
  · intro s out index x hx
    obtain ⟨y, hy, hret⟩ := Faulted.exists_report hx hcalls htop
    refine h.exists_fault (fault_eq last counting env.host) hy fun j hj => ?_
    obtain ⟨t, ht, hreported⟩ := hret (env.codeBase + UInt64.ofNat (offset (j + 1)))
    exact ⟨t, (next_op hout hasm hj y).trans ht, quiet_of_returned h hout hasm hreported.rip, if_pos hreported.rip,
      hreported⟩

/-! ### Entering -/

/-- The entry goes on at the start of the instruction that is to be resumed. -/
theorem exists_trail_entry {ip : Nat}
    (hm : Entered env counting s
      (env.codeBase + UInt64.ofNat (offset ((dialect last counting env.host).start p ip))) m₀) :
    ∃ n y, Trail (next env code sink) (backend env sink p last counting code offset m₀).Quiet n m₀
        (place env offset ((dialect last counting env.host).start p ip) y) ∧
      Holds env sink counting m₀ s #[] y := by
  obtain ⟨y, hy, hresume, hholds⟩ := exists_binding sink hm
  have hstart : place env offset 0 m₀ = m₀ := by
    show m₀.goto (env.codeBase + UInt64.ofNat (offset 0)) = m₀
    rw [hasm.zero, show env.codeBase + UInt64.ofNat 0 = m₀.rip by rw [hm.rip]; exact UInt64.add_zero _]
    rfl
  obtain ⟨n, t, htrail, rfl⟩ := h.exists_entry
    (P := fun t => t = place env offset ((dialect last counting env.host).start p ip) y)
    (entry_eq last counting env.host) hy fun j hj => by
      refine ⟨_, (next_op hout hasm hj y).trans ?_, rfl⟩
      show some (y.goto (y.reg .r9)) = _
      rw [hresume]
      rfl
  rw [show (backend env sink p last counting code offset m₀).place 0 m₀ = m₀ from hstart] at htrail
  exact ⟨n, y, htrail, hholds⟩

end Sound

end Machine

/-! ### Generated code -/

open Machine

variable {σ : Type} {env : Environment} {m₀ : Machine σ} {s : Interpreter} {p : Program}

theorem generate_ok {options : CodeOptions} {r : Routine} (hp : p.Linked) (h : generate p options = .ok r) :
    ∃ last offset, lastIndex? options.capacity = some last ∧ p.Compilable ∧
      Assembled ((dialect last options.counting options.host).listing p) r.code offset ∧
      r.offsets.size = p.size ∧
      ∀ ip < p.size, r.offsets[ip]? = some (offset ((dialect last options.counting options.host).start p ip)) := by
  rw [generate] at h
  split at h
  · cases h
  · rename_i last hlast
    cases hroutine : (dialect last options.counting options.host).routine p with
    | error e => rw [hroutine] at h; cases h
    | ok ps =>
      rw [hroutine] at h
      obtain ⟨hcompilable, rfl⟩ := (Dialect.routine_eq_ok_iff _ hp).1 hroutine
      replace h : Except.mapError Error.assembly (assemble
        ((dialect last options.counting options.host).listing p).toArray (instructionLabels p)) = .ok r := h
      cases hassemble : assemble ((dialect last options.counting options.host).listing p).toArray
          (instructionLabels p) with
      | error e => rw [hassemble] at h; cases h
      | ok r' =>
        rw [hassemble] at h
        cases h
        obtain ⟨offset, hasm, hsize, hoffset⟩ := assembled_of_assemble hassemble
        refine ⟨last, offset, hlast, hcompilable, hasm, by simpa [instructionLabels] using hsize, ?_⟩
        intro ip hip
        obtain ⟨k, hk, hget⟩ := hoffset ip (.instruction ip) (by
          rw [instructionLabels, Array.getElem?_map, Array.getElem?_range, if_pos hip]
          rfl)
        rw [hget, show k = _ from Dialect.label_place hk]

/-- No routine is empty. -/
theorem size_code_ne_zero {options : CodeOptions} {r : Routine} (hp : p.Linked) (h : generate p options = .ok r) :
    r.code.size ≠ 0 := by
  obtain ⟨last, offset, _, _, hasm, _⟩ := generate_ok hp h
  have hfirst := (Dialect.located_entry (d := dialect last options.counting options.host) (p := p)).get
    (j := 0) (x := .op (.push .rbp)) rfl
  obtain ⟨_, hnext, _⟩ := hasm.op hfirst
  have hlen : (Op.push .rbp).encode.length = 1 := rfl
  have hle := hasm.le (0 + 0 + 1)
  omega

end TapeLang.X86
