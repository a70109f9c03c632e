import TapeLang.Proofs.Elf.Layout

/-!
# Objects tell their routines

What is read of an object is the routine that it was written for: the code, a symbol for each instruction and one for
the whole (`object_reads_back`). Sections and the values of symbols are found in every object (`Object.Describes`);
names as far as the format has bits for where they start (`Object.Names`, under `NamesFit`). That two routines never
have one object needs no names, since the values of symbols stand in order.
-/

namespace TapeLang.Elf

variable {arch arch' : Architecture} {r r' : Routine}

/-- The format has 32 bits for where a name starts. -/
def NamesFit (r : Routine) : Prop := (names r).bytes.size ≤ 2 ^ 32

/-- An object of a size describes a routine, whatever its symbols are called. -/
structure Object.Describes (o : Object) (arch : Architecture) (r : Routine) (size : Nat) : Prop where
  machine : o.machine = machineOf arch
  /-- There is one section of the name, which is to be loaded and executed, and holds the code. -/
  text : ∃ t, o.sections.filter (·.name = nameBytes ".text") = [t] ∧ o.sections[textSection]? = some t ∧
    t.header.kind = 1 ∧ t.header.flags = 6 ∧ t.contents = r.code.toList
  /-- The sections lie inside the file. -/
  inside {s : Section} (h : s ∈ o.sections) : s.header.offset + s.header.size ≤ size
  /-- A symbol that stands for none, those of the instructions in order, and that of the routine. -/
  values : o.symbols.map (·.value) = 0 :: r.offsets.toList ++ [0]
  /-- All but the last symbol are local. -/
  binding_iff {k : Nat} {s : NamedSymbol} (h : o.symbols[k]? = some s) : s.binding = 0 ↔ k < r.offsets.size + 1

/-- The symbols of an object can be told by their names. -/
structure Object.Names (o : Object) (r : Routine) : Prop where
  locals : o.locals = r.offsets.size + 1
  /-- There is one symbol of the name, a global function over the code. -/
  entry : o.symbols.filter (·.name = nameBytes entryName) = [⟨nameBytes entryName, 1, 2, textSection, 0, r.code.size⟩]
  /-- There is one symbol of the name, which is local and has no size. -/
  instruction {ip : Nat} (hip : ip < r.offsets.size) :
    o.symbols.filter (·.name = nameBytes (instructionName ip)) =
      [⟨nameBytes (instructionName ip), 0, 0, textSection, r.offsets[ip], 0⟩]

/-! ### The symbols by their names -/

/-- The local symbols of a routine as they are read. -/
def localsOf (r : Routine) : List NamedSymbol :=
  ⟨[], 0, 0, 0, 0, 0⟩ :: r.offsets.toList.zipIdx.map fun (offset, ip) =>
    ⟨nameBytes (instructionName ip), 0, 0, textSection, offset, 0⟩

/-- The global symbol of a routine as it is read. -/
def entryOf (r : Routine) : NamedSymbol := ⟨nameBytes entryName, 1, 2, textSection, 0, r.code.size⟩

theorem getElem?_symbolNames {count ip : Nat} (h : ip < count) :
    (symbolNames count)[ip]? = some (nameBytes (instructionName ip)) := by
  rw [symbolNames, List.getElem?_append_left (by simpa using h), List.getElem?_map, List.getElem?_range h]
  rfl

theorem getElem?_symbolNames_self (count : Nat) : (symbolNames count)[count]? = some (nameBytes entryName) := by
  rw [symbolNames, List.getElem?_append_right (by simp)]
  simp

/-- Where the names fit, that of a symbol is found. -/
theorem resolved_eq (h : NamesFit r) {i : Nat} {name : List UInt8}
    (hname : (symbolNames r.offsets.size)[i]? = some name) (hzero : 0 ∉ name) (info sectionNumber value size : Nat) :
    Symbol.resolved (names r).bytes.toList ⟨(names r).start i, info, sectionNumber, value, size⟩ =
      ⟨name, info / 16, info % 16, sectionNumber, value, size⟩ := by
  have hstart := StringTable.start_lt (List.getElem?_eq_some_iff.1 hname).1
  have hmod : (names r).start i % 2 ^ 32 = (names r).start i := Nat.mod_eq_of_lt (Nat.lt_of_lt_of_le hstart h)
  have hat : nameAt (names r).bytes.toList ((names r).start i) = name := nameAt_start hname hzero
  rw [Symbol.resolved, hmod, hat]

variable (arch) in
theorem symbols_objectOf (h : NamesFit r) : (objectOf arch r).symbols = localsOf r ++ [entryOf r] := by
  have hnull : Symbol.resolved (names r).bytes.toList ⟨0, 0, 0, 0, 0⟩ = ⟨[], 0, 0, 0, 0, 0⟩ :=
    congrArg (NamedSymbol.mk · 0 0 0 0 0) (nameAt_zero _)
  have hentry := resolved_eq h (getElem?_symbolNames_self _) (zero_notMem_nameBytes plain_entryName) 0x12 textSection 0
    r.code.size
  show (symbols (names r) r).map _ = _
  rw [symbols, List.map_append, List.map_cons, List.map_map, hnull, localsOf, entryOf]
  refine congr (congrArg _ (congrArg _ (List.map_congr_left ?_))) (congrArg (fun s => [s]) hentry)
  rintro ⟨offset, ip⟩ hmem
  obtain ⟨hip, _⟩ := List.getElem?_eq_some_iff.1 (List.mem_zipIdx_iff_getElem?.1 hmem)
  exact resolved_eq h (getElem?_symbolNames (by simpa using hip)) (zero_notMem_nameBytes (plain_instructionName ip)) 0
    textSection offset 0

theorem map_name_symbols (r : Routine) : (localsOf r ++ [entryOf r]).map (·.name) =
    [] :: ((List.range r.offsets.size).map fun ip => nameBytes (instructionName ip)) ++ [nameBytes entryName] := by
  have hnames : r.offsets.toList.zipIdx.map (fun x => nameBytes (instructionName x.2)) =
      (List.range r.offsets.size).map fun ip => nameBytes (instructionName ip) := by
    rw [← Array.length_toList, List.range_eq_range', ← List.zipIdx_map_snd 0 r.offsets.toList, List.map_map]
    rfl
  rw [localsOf, List.map_append, List.map_cons, List.map_map]
  exact congrArg (fun names => [] :: names ++ [nameBytes entryName]) hnames

/-- No two symbols have one name. -/
theorem nodup_names (r : Routine) : ((localsOf r ++ [entryOf r]).map (·.name)).Nodup := by
  have hinstructions : ((List.range r.offsets.size).map fun ip => nameBytes (instructionName ip)).Nodup :=
    List.pairwise_map.2 (List.nodup_range.imp fun hne heq => hne (instructionName_inj.1 (nameBytes_inj.1 heq)))
  have hempty (ip : Nat) : [] ≠ nameBytes (instructionName ip) := by
    intro heq
    have hlist := congrArg String.toList (nameBytes_inj (a := "").1 heq)
    rw [toList_instructionName] at hlist
    cases hlist
  rw [map_name_symbols, List.cons_append, List.nodup_cons, List.nodup_append]
  refine ⟨?_, hinstructions, List.pairwise_singleton .., ?_⟩
  · rw [List.mem_append, List.mem_map, List.mem_singleton]
    rintro (⟨ip, _, heq⟩ | heq)
    · exact hempty ip heq.symm
    · cases heq
  · intro a ha b hb heq
    obtain ⟨ip, _, rfl⟩ := List.mem_map.1 ha
    rw [List.mem_singleton] at hb
    rw [hb] at heq
    exact instructionName_ne_entryName ip (nameBytes_inj.1 heq)

theorem filter_eq_singleton {α β : Type} [DecidableEq β] {f : α → β} {xs : List α} (hnodup : (xs.map f).Nodup) {x : α}
    (hx : x ∈ xs) : xs.filter (f · = f x) = [x] := by
  induction xs with
  | nil => cases hx
  | cons y ys ih =>
    rw [List.map_cons, List.nodup_cons] at hnodup
    rcases List.mem_cons.1 hx with rfl | hmem
    · rw [List.filter_cons_of_pos (by simp), List.filter_eq_nil_iff.2]
      intro z hz heq
      refine hnodup.1 (List.mem_map.2 ⟨z, hz, ?_⟩)
      simpa using heq
    · rw [List.filter_cons_of_neg, ih hnodup.2 hmem]
      intro heq
      refine hnodup.1 (List.mem_map.2 ⟨x, hmem, ?_⟩)
      simpa using (of_decide_eq_true heq).symm

/-! ### Routines by their objects -/

theorem length_le_length_flatMap (names : List (List UInt8)) : names.length ≤ (names.flatMap (· ++ [0])).length := by
  induction names with
  | nil => exact Nat.le_refl _
  | cons name names ih =>
    rw [List.flatMap_cons, List.length_append, List.length_append, List.length_cons, List.length_singleton]
    omega

theorem NamesFit.size_lt (h : NamesFit r) : r.offsets.size + 1 < 2 ^ 32 := by
  have hle := length_le_length_flatMap (symbolNames r.offsets.size)
  have hlen : (symbolNames r.offsets.size).length = r.offsets.size + 1 := by simp [symbolNames]
  rw [NamesFit, names, StringTable.size_ofNames] at h
  omega

theorem nodup_sectionNames (r : Routine) : ((sectionsOf r).map (·.name)).Nodup := by
  show [[], nameBytes ".text", nameBytes ".symtab", nameBytes ".strtab", nameBytes ".shstrtab"].Nodup
  decide

/-- The sections lie between the header and the section headers. -/
theorem end_le_headersAt {t : Section} (h : t ∈ sectionsOf r) : t.header.offset + t.header.size ≤ headersAt r := by
  have hle : namesAt r + (names r).bytes.size + sectionTable.bytes.size ≤ headersAt r := by
    rw [headersAt, sectionsEnd, sectionNamesAt]
    omega
  have hnames : headerSize + r.code.size ≤ symbolsAt r ∧
      namesAt r = symbolsAt r + symbolSize * (symbols (names r) r).length := ⟨Nat.le_add_right _ _, rfl⟩
  simp only [sectionsOf, List.mem_cons, List.not_mem_nil, or_false] at h
  rcases h with rfl | rfl | rfl | rfl | rfl
  · exact Nat.zero_le _
  · show headerSize + r.code.size ≤ _
    omega
  · show symbolsAt r + symbolSize * (symbols (names r) r).length ≤ _
    omega
  · show namesAt r + (names r).bytes.size ≤ _
    omega
  · show sectionNamesAt r + sectionTable.bytes.size ≤ _
    rw [sectionNamesAt]
    omega

/-- The values of the symbols are the offsets, whatever their names. -/
theorem values_symbols (arch : Architecture) (r : Routine) :
    (objectOf arch r).symbols.map (·.value) = 0 :: r.offsets.toList ++ [0] := by
  have hvalues : r.offsets.toList.zipIdx.map (fun x => x.1) = r.offsets.toList := List.zipIdx_map_fst ..
  show ((symbols (names r) r).map _).map _ = _
  rw [symbols, List.map_map, List.map_append, List.map_cons, List.map_map]
  exact congrArg (fun values => 0 :: values ++ [0]) hvalues

/-- The symbol of the routine is the only one that is not local. -/
theorem info_iff {t : StringTable} {k : Nat} {s : Symbol} (h : (symbols t r)[k]? = some s) :
    s.info / 16 = 0 ↔ k < r.offsets.size + 1 := by
  have hlen : (⟨0, 0, 0, 0, 0⟩ :: r.offsets.toList.zipIdx.map fun (offset, ip) =>
      (⟨t.start ip, 0, textSection, offset, 0⟩ : Symbol)).length = r.offsets.size + 1 := by simp
  rw [symbols] at h
  rw [← hlen]
  rcases Nat.lt_or_ge k (r.offsets.size + 1) with hlt | hge
  · rw [← hlen] at hlt
    rw [List.getElem?_append_left hlt] at h
    refine iff_of_true ?_ hlt
    rcases List.mem_cons.1 (List.mem_of_getElem? h) with rfl | hmem
    · rfl
    · obtain ⟨⟨_, _⟩, _, rfl⟩ := List.mem_map.1 hmem
      exact Nat.zero_div 16
  · rw [← hlen] at hge
    rw [List.getElem?_append_right hge] at h
    obtain rfl := List.mem_singleton.1 (List.mem_of_getElem? h)
    have hinfo : ¬ (0x12 / 16 = 0) := by decide
    exact iff_of_false hinfo (Nat.not_lt_of_le hge)

variable (arch r) in
theorem objectOf_describes : (objectOf arch r).Describes arch r (write arch r).length := by
  constructor
  · rfl
  · exact ⟨_, filter_eq_singleton (nodup_sectionNames r) (List.mem_cons_of_mem _ (List.mem_cons_self ..)), rfl, rfl,
      rfl, rfl⟩
  · intro t ht
    rw [length_write]
    exact Nat.le_trans (end_le_headersAt ht) (Nat.le_add_right _ _)
  · exact values_symbols arch r
  · intro k s hk
    rw [objectOf, List.getElem?_map] at hk
    obtain ⟨_, hsymbol, rfl⟩ := Option.map_eq_some_iff.1 hk
    exact info_iff hsymbol

variable (arch) in
/-- The names are found where they fit. -/
theorem objectOf_names (h : NamesFit r) : (objectOf arch r).Names r where
  locals := Nat.mod_eq_of_lt h.size_lt
  entry := by
    rw [symbols_objectOf arch h]
    exact filter_eq_singleton (x := entryOf r) (nodup_names r) (List.mem_append_right _ (List.mem_singleton_self _))
  instruction {ip} hip := by
    rw [symbols_objectOf arch h]
    refine filter_eq_singleton (x := ⟨nameBytes (instructionName ip), 0, 0, textSection, r.offsets[ip], 0⟩)
      (nodup_names r) (List.mem_append_left _ (List.mem_cons_of_mem _ (List.mem_map.2 ⟨(r.offsets[ip], ip), ?_, rfl⟩)))
    refine List.mem_zipIdx_iff_getElem?.2 ?_
    rw [Array.getElem?_toList, Array.getElem?_eq_getElem hip]

theorem machineOf_inj (h : machineOf arch = machineOf arch') : arch = arch' := by
  cases arch <;> cases arch' <;> first | rfl | cases h

theorem eq_of_objectOf_eq (h : objectOf arch r = objectOf arch' r') : arch = arch' ∧ r = r' := by
  have hcode : r.code.toList = r'.code.toList := by
    have hcontents := congrArg (fun o => o.sections[textSection]?.map (·.contents)) h
    exact Option.some.inj hcontents
  have hoffsets : r.offsets.toList = r'.offsets.toList := by
    have hvalues := congrArg (fun o => o.symbols.map (·.value)) h
    simp only [values_symbols] at hvalues
    exact List.append_cancel_right (List.cons.inj hvalues).2
  refine ⟨machineOf_inj (congrArg Object.machine h), ?_⟩
  cases r
  cases r'
  rw [Routine.mk.injEq]
  exact ⟨Array.toList_inj.1 hcode, Array.toList_inj.1 hoffsets⟩

/-- The object of a routine can be read, and what is read describes the routine, with its names if these fit; no other
routine, and no other instruction set, has the same object. -/
theorem object_reads_back (h : Fits arch r) :
    (∃ o, read? (write arch r) = some o ∧ o.Describes arch r (write arch r).length ∧ (NamesFit r → o.Names r)) ∧
      ∀ {arch' : Architecture} {r' : Routine}, Fits arch' r' → write arch' r' = write arch r →
        arch' = arch ∧ r' = r := by
  constructor
  · exact ⟨_, read_write h, objectOf_describes arch r, objectOf_names arch⟩
  · intro arch' r' h' heq
    have hread := read_write h'
    rw [heq, read_write h] at hread
    exact eq_of_objectOf_eq (Option.some.inj hread).symm

/-! ### Routines that fit -/

theorem length_flatMap_le {names : List (List UInt8)} {k : Nat} (h : ∀ name ∈ names, name.length < k) :
    (names.flatMap (· ++ [0])).length ≤ k * names.length := by
  induction names with
  | nil => exact Nat.zero_le _
  | cons name names ih =>
    rw [List.forall_mem_cons] at h
    have hrest := ih h.2
    simp only [List.flatMap_cons, List.length_append, List.length_cons, List.length_nil, Nat.mul_add]
    omega

/-- The names of a hundred million instructions fit. -/
theorem namesFit_of_size_lt (h : r.offsets.size < 10 ^ 8) : NamesFit r := by
  have hname : ∀ name ∈ symbolNames r.offsets.size, name.length < 16 := by
    intro name hmem
    rw [symbolNames, List.mem_append, List.mem_map, List.mem_singleton] at hmem
    rcases hmem with ⟨ip, hip, rfl⟩ | rfl
    · have hlen := length_instructionName ip (k := 8) (by decide) (Nat.lt_trans (List.mem_range.1 hip) h)
      omega
    · decide
  have hle := length_flatMap_le hname
  have hlen : (symbolNames r.offsets.size).length = r.offsets.size + 1 := by simp [symbolNames]
  rw [NamesFit, names, StringTable.size_ofNames]
  omega

theorem fits_of_size_lt (arch : Architecture) (hcode : r.code.size < 2 ^ 63) (hcount : r.offsets.size < 10 ^ 8)
    (hoffset : ∀ o ∈ r.offsets, o < 2 ^ 64) : Fits arch r where
  offset {o} ho := hoffset o ho
  length := by
    have hnames : (names r).bytes.size ≤ 2 ^ 32 := namesFit_of_size_lt hcount
    have hpadding (n : Nat) : paddingTo8 n < 8 := Nat.mod_lt _ (by decide)
    have hsections : sectionsEnd r < 2 ^ 63 + 2 ^ 34 := by
      have := hpadding (headerSize + r.code.size)
      rw [sectionsEnd, sectionNamesAt, namesAt, symbolsAt, length_symbols, size_sectionTable]
      simp only [headerSize, symbolSize] at this ⊢
      omega
    have := hpadding (sectionsEnd r)
    rw [length_write, headersAt, sectionHeaderSize]
    omega

/-- Three bytes of code with two instructions, and the same for the other instruction set. -/
theorem object_reads_back_short : ∃ o, read? (write .x86_64 ⟨#[0x90, 0x90, 0xC3], #[0, 1]⟩) = some o ∧
    o.Describes .x86_64 ⟨#[0x90, 0x90, 0xC3], #[0, 1]⟩ (write .x86_64 ⟨#[0x90, 0x90, 0xC3], #[0, 1]⟩).length ∧
    o.Names ⟨#[0x90, 0x90, 0xC3], #[0, 1]⟩ ∧
    write .aarch64 ⟨#[0x90, 0x90, 0xC3], #[0, 1]⟩ ≠ write .x86_64 ⟨#[0x90, 0x90, 0xC3], #[0, 1]⟩ := by
  have hfits (arch : Architecture) : Fits arch ⟨#[0x90, 0x90, 0xC3], #[0, 1]⟩ :=
    fits_of_size_lt arch (by decide) (by decide) (by simp)
  obtain ⟨⟨o, ho, hdescribes, hnames⟩, hdistinct⟩ := object_reads_back (hfits .x86_64)
  refine ⟨o, ho, hdescribes, hnames (namesFit_of_size_lt (by decide)), fun heq => ?_⟩
  cases (hdistinct (hfits .aarch64) heq).1

end TapeLang.Elf
