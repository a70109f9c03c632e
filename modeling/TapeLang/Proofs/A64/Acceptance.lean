import TapeLang.Proofs.A64.Simulation

/-!
# Programs whose code is accepted

A branch over less than a megabyte reaches, so a linked program of moderate size has its code
accepted (`generate_accepts`).
-/

namespace TapeLang.A64

variable {ps : List (Piece Op Branch Label)} {report : Label → Nat}

/-- So many pieces that any branch among fewer reaches. -/
def maxPieces : Nat := 2 ^ 18

theorem exists_encode (hps : Once ps) (hlen : ps.length < maxPieces)
    (hbranch : ∀ (k : Nat) (b : Branch) (l : Label), ps[k]? = some (.branch b l) → ∃ j : Nat, ps[j]? = some (.label l))
    {k : Nat} {q : Piece Op Branch Label} (hk : ps[k]? = some q) :
    ∃ bytes, encode report (places ps.toArray) (offsetAt ps k) q = .ok bytes := by
  cases q with
  | op o => exact ⟨_, rfl⟩
  | label l => exact ⟨_, rfl⟩
  | branch b l =>
    obtain ⟨j, hj⟩ := hbranch k b l hk
    have hplace : place (places ps.toArray) l = .ok (offsetAt ps j) := (place_eq_ok_iff hps l _).2 ⟨j, hj, rfl⟩
    have hj := offsetAt_le_mul ps j
    have hk := offsetAt_le_mul ps k
    have hreaches : b.reaches (((offsetAt ps j : Int) - offsetAt ps k) / 4) = true := by
      have hwidth : (2 : Int) ^ 18 ≤ 2 ^ (b.width - 1) := by cases b <;> decide
      unfold maxPieces at hlen
      rw [Branch.reaches, Bool.and_eq_true, decide_eq_true_eq, decide_eq_true_eq]
      omega
    refine ⟨wordBytes (b.word (((offsetAt ps j : Int) - offsetAt ps k) / 4)), ?_⟩
    rw [encode, hplace]
    exact if_pos hreaches

variable (report) in
theorem exists_encodeTo (found : Std.HashMap Nat Nat) (code : Array UInt8)
    (h : ∀ (k : Nat) (q : Piece Op Branch Label), ps[k]? = some q →
      ∃ bytes, encode report found (code.size + offsetAt ps k) q = .ok bytes) :
    ∃ code', encodeTo report found code ps = .ok code' := by
  induction ps generalizing code with
  | nil => exact ⟨code, rfl⟩
  | cons q ps ih =>
    obtain ⟨bytes, hbytes⟩ := h 0 q rfl
    have hgrown : (code ++ bytes).size = code.size + width q := by
      rw [← Array.length_toList, Array.toList_appendList, List.length_append, Array.length_toList,
        encode_length hbytes]
    obtain ⟨code', hcode'⟩ := ih (code ++ bytes) fun k q' hk => by
      rw [hgrown, Nat.add_assoc]
      exact h (k + 1) q' hk
    refine ⟨code', ?_⟩
    rw [encodeTo, show encode report found code.size q = .ok bytes from hbytes]
    exact hcode'

variable (report) in
/-- Code is accepted if each of its pieces is. -/
theorem exists_assemble_of_encode (marks : Array Label) (hps : Once ps)
    (hencode : ∀ (k : Nat) (q : Piece Op Branch Label), ps[k]? = some q →
      ∃ bytes, encode report (places ps.toArray) (offsetAt ps k) q = .ok bytes)
    (hmarks : ∀ l ∈ marks, ∃ j : Nat, ps[j]? = some (.label l)) :
    ∃ r, assemble report ps.toArray marks = .ok r ∧ r.code.size ≤ 4 * ps.length := by
  obtain ⟨code, hcode⟩ := exists_encodeTo report (places ps.toArray) #[] fun k q hk => by
    rw [show (#[] : Array UInt8).size = 0 from rfl, Nat.zero_add]
    exact hencode k q hk
  obtain ⟨offsets, hoffsets⟩ := array_mapM_eq_ok_of_forall (f := place (places ps.toArray)) (l := marks) fun l hl => by
    obtain ⟨j, hj⟩ := hmarks l hl
    exact ⟨_, (place_eq_ok_iff hps l _).2 ⟨j, hj, rfl⟩⟩
  refine ⟨⟨code, offsets⟩, ?_, ?_⟩
  · rw [assemble, hcode]
    show (marks.mapM (place (places ps.toArray)) >>= _) = _
    rw [hoffsets]
    rfl
  · obtain ⟨hsize, -, -⟩ := encodeTo_ok hcode
    have hle := offsetAt_le_mul ps ps.length
    rw [show (#[] : Array UInt8).size = 0 from rfl, Nat.zero_add] at hsize
    show code.size ≤ _
    omega

variable (report) in
theorem exists_assemble (marks : Array Label) (hps : Once ps) (hlen : ps.length < maxPieces)
    (hbranch : ∀ (k : Nat) (b : Branch) (l : Label), ps[k]? = some (.branch b l) → ∃ j : Nat, ps[j]? = some (.label l))
    (hmarks : ∀ l ∈ marks, ∃ j : Nat, ps[j]? = some (.label l)) :
    ∃ r, assemble report ps.toArray marks = .ok r ∧ r.code.size ≤ 4 * ps.length :=
  exists_assemble_of_encode report marks hps (fun _ _ hk => exists_encode hps hlen hbranch hk) hmarks

/-- No instruction has more pieces than this. -/
def maxChunk : Nat := 20

theorem length_loadWord_le (r : Reg) (v : UInt64) : (Op.loadWord r v).length ≤ 4 := by
  have hkeep (k : Fin 4) : (Op.keepPart r v k).length ≤ 1 := by
    unfold Op.keepPart
    split <;> simp
  have h₁ := hkeep 1
  have h₂ := hkeep 2
  have h₃ := hkeep 3
  simp only [Op.loadWord, List.length_append, List.length_cons]
  omega

theorem length_chunk_le (last : Nat) (counting : Bool) (calls : HostCalls) (ip : Nat) (i : Instruction) :
    ((dialect last counting calls).chunk ip i).length ≤ maxChunk := by
  have hcount : ((dialect last counting calls).count i.kind).length ≤ 3 := by
    simp only [dialect]
    split <;> simp [increment]
  rw [Dialect.chunk, Dialect.lead, List.length_cons, List.length_append, Dialect.length_ops]
  suffices htail : ((dialect last counting calls).tail ip i).length ≤ 16 by
    rw [maxChunk]
    omega
  cases i with
  | move delta =>
    have hmove : (moveIndex delta).length ≤ 5 := by
      have := length_loadWord_le 13 delta.toUInt64
      simp only [moveIndex]
      split
      · split <;> simp
      · rw [List.length_append, List.length_singleton]
        omega
    have hcompare : (compareIndex last).length ≤ 5 := by
      have := length_loadWord_le 14 (UInt64.ofNat last)
      unfold compareIndex
      split
      · simp
      · rw [List.length_append, List.length_singleton]
        omega
    simp only [Dialect.tail, dialect, List.length_append, List.length_cons, Dialect.length_ops, List.length_nil]
    omega
  | output =>
    have := length_loadWord_le 16 calls.putByte
    rw [Dialect.tail, Dialect.length_ops, Machine.output_eq]
    simp only [List.length_append, List.length_cons, List.length_nil]
    omega
  | _ => simp [Dialect.tail, dialect]

theorem length_closing_le (last : Nat) (counting : Bool) (calls : HostCalls) :
    (dialect last counting calls).closing.length ≤ 15 := by
  have := length_loadWord_le 16 calls.outOfBounds
  rw [Dialect.closing, List.length_append, List.length_cons, Dialect.length_ops, Dialect.length_ops,
    Machine.exit_eq, Machine.fault_eq]
  simp only [Machine.leaving, Machine.reporting, Machine.unwinding, List.length_append, List.length_cons,
    List.length_nil]
  omega

theorem length_listing_le (last : Nat) (counting : Bool) (calls : HostCalls) (p : Program) :
    ((dialect last counting calls).listing p).length ≤ 22 + maxChunk * p.size := by
  have hlen := (dialect last counting calls).length_listing_le (p := p) (length_chunk_le last counting calls)
  have hentry : (dialect last counting calls).entry.length = 7 := rfl
  have hclosing := length_closing_le last counting calls
  omega

/-- For a linked program without input and empty loops, what is left to be refused is up to the
assembler. -/
theorem generate_eq {p : Program} {options : CodeOptions} (hp : p.Linked) (hc : p.Compilable)
    (hcapacity : 0 < options.capacity) :
    generate p options = (assemble (reportNumber p)
      ((dialect (options.capacity - 1) options.counting options.host).listing p).toArray
      (instructionLabels p)).mapError .assembly := by
  have hroutine := ((dialect (options.capacity - 1) options.counting options.host).routine_eq_ok_iff hp).2 ⟨hc, rfl⟩
  rw [generate, if_neg (by omega)]
  show ((dialect (options.capacity - 1) options.counting options.host).routine p >>= _) = _
  rw [hroutine]
  rfl

/-- How many instructions a program may have for its code to be certain to be accepted. -/
def maxSize : Nat := 2 ^ 13

/-- A linked program without input and empty loops, of up to `maxSize` instructions, is accepted for
every capacity that a tape can have. -/
theorem generate_accepts {p : Program} (options : CodeOptions) (hp : p.Linked) (hc : p.Compilable)
    (hcapacity : 0 < options.capacity) (hsize : p.size ≤ maxSize) :
    ∃ r, generate p options = .ok r ∧ r.code.size < 2 ^ 31 := by
  have hlen := length_listing_le (options.capacity - 1) options.counting options.host p
  have hpieces : ((dialect (options.capacity - 1) options.counting options.host).listing p).length < maxPieces := by
    rw [maxSize] at hsize
    rw [maxPieces]
    rw [maxChunk] at hlen
    omega
  obtain ⟨r, hr, hcode⟩ := exists_assemble (reportNumber p) (instructionLabels p)
    (Machine.once_listing hp _) hpieces (fun k b l hk => Dialect.label_of_branch hp hk)
    fun l hl => Dialect.label_of_mem_instructionLabels _ hl
  rw [maxPieces] at hpieces
  refine ⟨r, ?_, by omega⟩
  rw [generate_eq hp hc hcapacity, hr]
  rfl

end TapeLang.A64
