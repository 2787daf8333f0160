import UserspaceBypass.DaemonCompile
import UserspaceBypass.LibDict
import UserspaceBypass.LibMapM

/-! `memread.py`: the two tables of a directory, the executable mappings of the process, and the
chunks of memory that are disassembled, each with the targets that lie in it. An exception or an
early `exit` is `none`. -/

namespace UserspaceBypass

open Text

/-- A line of `/proc/<pid>/maps`, if the mapping is executable. -/
def mapLine (line : List Char) : Option (Option (Nat × Nat)) :=
  match line.splitOn ' ' with
  | range :: perms :: _ =>
      if 'x' ∉ perms then some none
      else
        match range.splitOn '-' with
        | [start, stop] => do
            let start ← readHex start
            let stop ← readHex stop
            return some (start, stop)
        | _ => none
  | _ => none

/-- `getmap` -/
def getmap (text : List Char) : Option (List (Nat × Nat)) :=
  ((splitLines text).mapM mapLine).map fun maps => maps.filterMap id

/-- `[int(x.split()[0], 16), int(x.split()[1], 16)]` -/
def ijEntry (line : List Char) : Option (Nat × Nat) :=
  match words line with
  | source :: target :: _ => do
      let source ← readHex source
      let target ← readHex target
      return (source, target)
  | _ => none

/-- `ij_his` -/
def ijHistory (lines : SetOrder (List Char)) (text : List Char) : Option (List (Nat × Nat)) :=
  (lines.list (splitLines text)).mapM ijEntry

/-- The pairs entered into `jump_table`, and every entry made a set. -/
def seedTable (addresses : SetOrder Nat) (ijHis : List (Nat × Nat))
    (jumpTable : List (Nat × List Nat)) : List (Nat × List Nat) :=
  (ijHis.foldl (fun table p => Dict.push table p.1 p.2) jumpTable).map fun e =>
    (e.1, addresses.list e.2)

/-- `callees` -/
def readCallees (text : List Char) : Option (List Nat) := (splitLines text).mapM readHex

/-- The mappings, by their index, in which an address lies. -/
def mapsOf (maps : List (Nat × Nat)) (t : Nat) : List Nat :=
  (List.range maps.length).filter fun i => maps[i]?.any fun m => m.1 ≤ t && t < m.2

/-- `targets_of`; an address in no mapping ends the run. -/
def targetsOf (maps : List (Nat × Nat)) (targets : List Nat) : Option (List (Nat × List Nat)) :=
  targets.foldlM (fun table t =>
    if (mapsOf maps t).isEmpty then none
    else some ((mapsOf maps t).foldl (fun table i => Dict.push table i t) table)) []

/-- `[chunk, start, targets]` -/
structure MemChunk where
  bytes : List UInt8
  start : Nat
  targets : List Nat

/-- The memory of a mapping. -/
def readChunk (mem : Nat → UInt8) (maps : List (Nat × Nat)) (e : Nat × List Nat) :
    Option MemChunk :=
  maps[e.1]?.map fun m => ⟨(List.range (m.2 - m.1)).map fun i => mem (m.1 + i), m.1, e.2⟩

/-- What a process shows of itself under `/proc/<pid>`. -/
structure Proc where
  maps : List Char
  mem : Nat → UInt8

/-- The orders in which the sets of the script come out. -/
structure SetOrders where
  lines : SetOrder (List Char)
  addresses : SetOrder Nat

/-- `read`, with the jump table that it fills in. -/
def read (orders : SetOrders) (proc : Proc) (entry : Nat) (dir : Dir)
    (jumpTable : List (Nat × List Nat)) : Option (List (Nat × List Nat) × List MemChunk) := do
  let ijHis ← ijHistory orders.lines dir.ijTable
  let callees ← readCallees dir.calleeTable
  let maps ← getmap proc.maps
  let table ← targetsOf maps (orders.addresses.list (ijHis.map Prod.snd ++ [entry] ++ callees))
  let chunks ← table.mapM (readChunk proc.mem maps)
  return (seedTable orders.addresses ijHis jumpTable, chunks)

section Tables

variable {dir : Dir} {a b : BitVec 64}

/-- What is written with `%p` is read back. -/
theorem readHex_pointerText (ha : a ≠ 0) : readHex (pointerText a) = some a.toNat := by
  rw [pointerText, if_neg ha, readHex_hexText]

theorem pointerText_plain (ha : a ≠ 0) :
    pointerText a ≠ [] ∧ ∀ c ∈ pointerText a, isBlank c = false := by
  rw [pointerText, if_neg ha]
  exact ⟨List.cons_ne_nil _ _, fun c hc => not_isBlank_of_isAlphanum (isAlphanum_of_mem_hexText hc)⟩

/-- The line of `ij_table.txt` for a pair. -/
def ijText (p : BitVec 64 × BitVec 64) : List Char :=
  pointerText p.1 ++ " ".toList ++ pointerText p.2

theorem ijText_line (p : BitVec 64 × BitVec 64) : '\n' ∉ ijText p := by
  have hnewline : Separator '\n' := by decide
  simp only [ijText, List.mem_append, not_or]
  exact ⟨⟨hnewline.not_mem _, by decide⟩, hnewline.not_mem _⟩

theorem ijEntry_ijText {p : BitVec 64 × BitVec 64} (h : p.1 ≠ 0) (h' : p.2 ≠ 0) :
    ijEntry (ijText p) = some (p.1.toNat, p.2.toNat) := by
  obtain ⟨hne, hplain⟩ := pointerText_plain h
  obtain ⟨hne', hplain'⟩ := pointerText_plain h'
  have hwords : words (ijText p) = [pointerText p.1, pointerText p.2] := by
    have hblank : ijText p = pointerText p.1 ++ ' ' :: pointerText p.2 := by
      rw [ijText, List.append_assoc]
      rfl
    rw [hblank, words_pair hne hplain hne' hplain']
  rw [ijEntry, hwords]
  simp only [readHex_pointerText h, readHex_pointerText h', Option.bind_eq_bind, Option.bind_some,
    Option.pure_def]

/-- The tables hold exactly these pairs and callees, in the order in which they were reported. -/
structure Dir.Holds (dir : Dir) (pairs : List (BitVec 64 × BitVec 64))
    (callees : List (BitVec 64)) : Prop where
  ijTable : dir.ijTable = pairs.flatMap fun p => echoLine (ijText p)
  calleeTable : dir.calleeTable = callees.flatMap fun a => echoLine (pointerText a)

variable {pairs : List (BitVec 64 × BitVec 64)} {callees : List (BitVec 64)}

theorem splitLines_echo {α : Type*} {f : α → List Char} (hf : ∀ x, '\n' ∉ f x) (l : List α) :
    splitLines (l.flatMap fun x => echoLine (f x)) = l.map f := by
  have hlines := @splitLines_flatMap (l.map f) (by simpa using fun x _ => hf x)
  rw [List.flatMap_map] at hlines
  exact hlines

/-- The pairs are read back, each of them once. -/
theorem ijHistory_holds (h : dir.Holds pairs callees) (hne : ∀ p ∈ pairs, p.1 ≠ 0 ∧ p.2 ≠ 0)
    (lines : SetOrder (List Char)) :
    ∃ ijHis, ijHistory lines dir.ijTable = some ijHis ∧
      ∀ x, x ∈ ijHis ↔ ∃ p ∈ pairs, (p.1.toNat, p.2.toNat) = x := by
  have hentry : ∀ line,
      line ∈ lines.list (splitLines dir.ijTable) ↔ ∃ p ∈ pairs, ijText p = line := by
    intro line
    rw [lines.mem_list, h.ijTable, splitLines_echo ijText_line, List.mem_map]
  have hsome : ∀ line ∈ lines.list (splitLines dir.ijTable), ∃ x, ijEntry line = some x := by
    intro line hline
    obtain ⟨p, hp, rfl⟩ := (hentry line).mp hline
    exact ⟨_, ijEntry_ijText (hne p hp).1 (hne p hp).2⟩
  obtain ⟨ijHis, hread⟩ := MapM.exists_of_forall hsome
  refine ⟨ijHis, hread, fun x => (MapM.mem_iff hread).trans ⟨?_, ?_⟩⟩
  · rintro ⟨line, hline, hx⟩
    obtain ⟨p, hp, rfl⟩ := (hentry line).mp hline
    rw [ijEntry_ijText (hne p hp).1 (hne p hp).2] at hx
    exact ⟨p, hp, Option.some.inj hx⟩
  · rintro ⟨p, hp, rfl⟩
    exact ⟨ijText p, (hentry _).mpr ⟨p, hp, rfl⟩, ijEntry_ijText (hne p hp).1 (hne p hp).2⟩

theorem readCallees_holds (h : dir.Holds pairs callees) (hne : ∀ a ∈ callees, a ≠ 0) :
    ∃ read, readCallees dir.calleeTable = some read ∧
      ∀ x, x ∈ read ↔ ∃ a ∈ callees, a.toNat = x := by
  have hnewline : Separator '\n' := by decide
  have hlines : splitLines dir.calleeTable = callees.map pointerText := by
    rw [h.calleeTable, splitLines_echo fun a => hnewline.not_mem a]
  have hsome : ∀ line ∈ splitLines dir.calleeTable, ∃ x, readHex line = some x := by
    intro line hline
    rw [hlines] at hline
    obtain ⟨a, ha, rfl⟩ := List.mem_map.mp hline
    exact ⟨_, readHex_pointerText (hne a ha)⟩
  obtain ⟨read, hread⟩ := MapM.exists_of_forall hsome
  refine ⟨read, hread, fun x => (MapM.mem_iff hread).trans ?_⟩
  rw [hlines]
  constructor
  · rintro ⟨line, hline, hx⟩
    obtain ⟨a, ha, rfl⟩ := List.mem_map.mp hline
    rw [readHex_pointerText (hne a ha)] at hx
    exact ⟨a, ha, Option.some.inj hx⟩
  · rintro ⟨a, ha, rfl⟩
    exact ⟨_, List.mem_map_of_mem ha, readHex_pointerText (hne a ha)⟩

end Tables

section Seed

variable {addresses : SetOrder Nat} {ijHis : List (Nat × Nat)} {jumpTable : List (Nat × List Nat)}

theorem mem_entries_seedTable {r x : Nat} :
    x ∈ Dict.entries (seedTable addresses ijHis jumpTable) r ↔
      x ∈ Dict.entries jumpTable r ∨ (r, x) ∈ ijHis := by
  have hpushed :
      x ∈ Dict.entries (ijHis.foldl (fun table p => Dict.push table p.1 p.2) jumpTable) r ↔
      x ∈ Dict.entries jumpTable r ∨ (r, x) ∈ ijHis := by
    rw [Dict.entries_foldl_push, List.mem_append]
    refine or_congr_right ?_
    simp
  have hkeep : ∀ e : Nat × List Nat, (e.1, addresses.list e.2).1 = e.1 := fun _ => rfl
  rw [← hpushed, seedTable, Dict.entries, Dict.get_map hkeep, Dict.entries]
  cases Dict.get (ijHis.foldl (fun table p => Dict.push table p.1 p.2) jumpTable) r with
  | none => rfl
  | some xs => exact addresses.mem_list xs x

theorem nodup_seedTable (hd : (Dict.keys jumpTable).Nodup) :
    (Dict.keys (seedTable addresses ijHis jumpTable)).Nodup := by
  have hkeep : ∀ e : Nat × List Nat, (e.1, addresses.list e.2).1 = e.1 := fun _ => rfl
  rw [seedTable, Dict.keys_map hkeep]
  exact Dict.nodup_foldl_push jumpTable ijHis hd

end Seed

section Chunks

variable {maps : List (Nat × Nat)} {mem : Nat → UInt8}

/-- The address lies in one of the mappings. -/
def InMaps (maps : List (Nat × Nat)) (t : Nat) : Prop := ∃ m ∈ maps, m.1 ≤ t ∧ t < m.2

theorem mem_mapsOf {t i : Nat} :
    i ∈ mapsOf maps t ↔ ∃ m, maps[i]? = some m ∧ m.1 ≤ t ∧ t < m.2 := by
  rw [mapsOf, List.mem_filter, List.mem_range]
  constructor
  · rintro ⟨-, hany⟩
    cases hi : maps[i]? with
    | none =>
        rw [hi] at hany
        cases hany
    | some m =>
        rw [hi] at hany
        exact ⟨m, rfl, by simpa using hany⟩
  · rintro ⟨m, hi, hlow, hhigh⟩
    refine ⟨(List.getElem?_eq_some_iff.mp hi).1, ?_⟩
    rw [hi]
    simpa using ⟨hlow, hhigh⟩

theorem mapsOf_ne_nil {t : Nat} (h : InMaps maps t) : (mapsOf maps t).isEmpty = false := by
  obtain ⟨m, hm, hin⟩ := h
  obtain ⟨i, hi⟩ := List.mem_iff_getElem?.mp hm
  have hmem : i ∈ mapsOf maps t := mem_mapsOf.mpr ⟨m, hi, hin⟩
  rw [List.isEmpty_eq_false_iff]
  exact List.ne_nil_of_mem hmem

/-- One target entered under all its mappings. -/
theorem mem_entries_assign (table : List (Nat × List Nat)) (t i x : Nat) :
    x ∈ Dict.entries ((mapsOf maps t).foldl (fun table i => Dict.push table i t) table) i ↔
      x ∈ Dict.entries table i ∨ x = t ∧ i ∈ mapsOf maps t := by
  have hpairs := Dict.entries_foldl_push table i ((mapsOf maps t).map fun i => (i, t))
  rw [List.foldl_map] at hpairs
  rw [hpairs, List.mem_append]
  refine or_congr_right ⟨fun hx => ?_, ?_⟩
  · obtain ⟨p, hp, rfl⟩ := List.mem_map.mp hx
    obtain ⟨hmem, hkey⟩ := List.mem_filter.mp hp
    obtain ⟨j, hj, rfl⟩ := List.mem_map.mp hmem
    obtain rfl : j = i := of_decide_eq_true hkey
    exact ⟨rfl, hj⟩
  · rintro ⟨rfl, hi⟩
    refine List.mem_map.mpr ⟨(i, x), List.mem_filter.mpr ⟨List.mem_map_of_mem hi, ?_⟩, rfl⟩
    exact decide_eq_true rfl

theorem mem_keys_assign (table : List (Nat × List Nat)) (t i : Nat) :
    i ∈ Dict.keys ((mapsOf maps t).foldl (fun table i => Dict.push table i t) table) ↔
      i ∈ Dict.keys table ∨ i ∈ mapsOf maps t := by
  have hpairs := Dict.mem_keys_foldl_push table i ((mapsOf maps t).map fun i => (i, t))
  rw [List.foldl_map, List.map_map] at hpairs
  rw [hpairs]
  simp

/-- Every target is entered under the mappings in which it lies, and nothing else is. -/
theorem targetsOf_spec {targets : List Nat} (h : ∀ t ∈ targets, InMaps maps t) :
    ∃ table, targetsOf maps targets = some table ∧
      (∀ i x, x ∈ Dict.entries table i ↔ x ∈ targets ∧ i ∈ mapsOf maps x) ∧
      (∀ i ∈ Dict.keys table, i < maps.length) ∧ (Dict.keys table).Nodup := by
  have hloop : ∀ table : List (Nat × List Nat), (Dict.keys table).Nodup →
      (∀ i ∈ Dict.keys table, i < maps.length) →
      ∃ table', targets.foldlM (fun table t => if (mapsOf maps t).isEmpty then none
          else some ((mapsOf maps t).foldl (fun table i => Dict.push table i t) table)) table =
        some table' ∧
      (∀ i x, x ∈ Dict.entries table' i ↔
        x ∈ Dict.entries table i ∨ x ∈ targets ∧ i ∈ mapsOf maps x) ∧
      (∀ i ∈ Dict.keys table', i < maps.length) ∧ (Dict.keys table').Nodup := by
    induction targets with
    | nil => exact fun table hnodup hkeys => ⟨table, rfl, by simp, hkeys, hnodup⟩
    | cons t targets ih =>
        intro table hnodup hkeys
        obtain ⟨ht, hrest⟩ := List.forall_mem_cons.mp h
        have hnodup' : (Dict.keys ((mapsOf maps t).foldl (fun table i => Dict.push table i t)
            table)).Nodup := by
          have hpairs := Dict.nodup_foldl_push table ((mapsOf maps t).map fun i => (i, t)) hnodup
          rwa [List.foldl_map] at hpairs
        have hkeys' : ∀ i ∈ Dict.keys ((mapsOf maps t).foldl (fun table i => Dict.push table i t)
            table), i < maps.length := by
          intro i hi
          rcases (mem_keys_assign table t i).mp hi with hi | hi
          · exact hkeys i hi
          · obtain ⟨m, hm, -⟩ := mem_mapsOf.mp hi
            exact (List.getElem?_eq_some_iff.mp hm).1
        obtain ⟨table', hrun, hentries, hbound, hd⟩ := ih hrest _ hnodup' hkeys'
        refine ⟨table', ?_, fun i x => ?_, hbound, hd⟩
        · rw [List.foldlM_cons, mapsOf_ne_nil ht]
          exact hrun
        · rw [hentries, mem_entries_assign, List.mem_cons, or_assoc, or_and_right]
          refine or_congr_right (or_congr_left ⟨?_, ?_⟩)
          · rintro ⟨rfl, hi⟩
            exact ⟨rfl, hi⟩
          · rintro ⟨rfl, hi⟩
            exact ⟨rfl, hi⟩
  obtain ⟨table, hrun, hentries, hbound, hnodup⟩ := hloop [] List.nodup_nil (by simp [Dict.keys])
  exact ⟨table, hrun, fun i x => (hentries i x).trans (by simp [Dict.entries, Dict.get]), hbound,
    hnodup⟩

/-- Every target comes out in the chunk of a mapping in which it lies. -/
theorem chunks_spec {targets : List Nat} (h : ∀ t ∈ targets, InMaps maps t) :
    ∃ table chunks, targetsOf maps targets = some table ∧
      table.mapM (readChunk mem maps) = some chunks ∧
      (∀ t ∈ targets, ∃ chunk ∈ chunks, t ∈ chunk.targets) ∧
      ∀ chunk ∈ chunks, ∀ t ∈ chunk.targets, t ∈ targets ∧ chunk.start ≤ t ∧
        t < chunk.start + chunk.bytes.length := by
  obtain ⟨table, htable, hentries, hbound, hnodup⟩ := targetsOf_spec h
  have hsome : ∀ e ∈ table, ∃ chunk, readChunk mem maps e = some chunk := by
    intro e he
    have hi := hbound e.1 (Dict.mem_keys he)
    exact ⟨_, by rw [readChunk, List.getElem?_eq_getElem hi]; rfl⟩
  obtain ⟨chunks, hchunks⟩ := MapM.exists_of_forall hsome
  refine ⟨table, chunks, htable, hchunks, fun t ht => ?_, fun chunk hchunk t ht => ?_⟩
  · obtain ⟨m, hm, hin⟩ := h t ht
    obtain ⟨i, hi⟩ := List.mem_iff_getElem?.mp hm
    have hentry := (hentries i t).mpr ⟨ht, mem_mapsOf.mpr ⟨m, hi, hin⟩⟩
    rw [Dict.entries] at hentry
    cases hget : Dict.get table i with
    | none =>
        rw [hget] at hentry
        cases hentry
    | some xs =>
        rw [hget] at hentry
        obtain ⟨chunk, hread⟩ := hsome _ (Dict.mem_of_get hget)
        refine ⟨chunk, (MapM.mem_iff hchunks).mpr ⟨_, Dict.mem_of_get hget, hread⟩, ?_⟩
        obtain ⟨m', -, rfl⟩ := Option.map_eq_some_iff.mp hread
        exact hentry
  · obtain ⟨e, he, hread⟩ := (MapM.mem_iff hchunks).mp hchunk
    obtain ⟨m, hm, rfl⟩ := Option.map_eq_some_iff.mp hread
    have hentry : t ∈ Dict.entries table e.1 := by
      rw [Dict.entries, Dict.get_of_mem hnodup he]
      exact ht
    obtain ⟨htargets, hin⟩ := (hentries e.1 t).mp hentry
    obtain ⟨m', hm', hlow, hhigh⟩ := mem_mapsOf.mp hin
    obtain rfl : m = m' := Option.some.inj (hm.symm.trans hm')
    refine ⟨htargets, hlow, ?_⟩
    rw [List.length_map, List.length_range]
    dsimp only
    omega

end Chunks

/-- **The tables are read back.** From tables that hold these pairs and callees, for a process in
whose executable mappings all targets lie: the seed has exactly the pairs, and the chunks exactly the
targets, those that were reported and the entry. -/
theorem read_holds {dir : Dir} {pairs : List (BitVec 64 × BitVec 64)} {callees : List (BitVec 64)}
    (h : dir.Holds pairs callees) (hpairs : ∀ p ∈ pairs, p.1 ≠ 0 ∧ p.2 ≠ 0)
    (hcallees : ∀ a ∈ callees, a ≠ 0) (orders : SetOrders) {proc : Proc} {maps : List (Nat × Nat)}
    (hmaps : getmap proc.maps = some maps) {entry : Nat}
    (hin : ∀ t, t = entry ∨ (∃ p ∈ pairs, p.2.toNat = t) ∨ (∃ a ∈ callees, a.toNat = t) →
      InMaps maps t) :
    ∃ seed chunks, read orders proc entry dir [] = some (seed, chunks) ∧
      (∀ r x, x ∈ Dict.entries seed r ↔ ∃ p ∈ pairs, (p.1.toNat, p.2.toNat) = (r, x)) ∧
      (Dict.keys seed).Nodup ∧
      ∀ t, (∃ chunk ∈ chunks, t ∈ chunk.targets) ↔
        t = entry ∨ (∃ p ∈ pairs, p.2.toNat = t) ∨ ∃ a ∈ callees, a.toNat = t := by
  obtain ⟨ijHis, hij, hijMem⟩ := ijHistory_holds h hpairs orders.lines
  obtain ⟨read, hread, hreadMem⟩ := readCallees_holds h hcallees
  have htargets : ∀ t, t ∈ orders.addresses.list (ijHis.map Prod.snd ++ [entry] ++ read) ↔
      t = entry ∨ (∃ p ∈ pairs, p.2.toNat = t) ∨ ∃ a ∈ callees, a.toNat = t := by
    intro t
    rw [orders.addresses.mem_list, List.mem_append, List.mem_append, List.mem_singleton, hreadMem,
      List.mem_map]
    have hsecond : (∃ x ∈ ijHis, x.2 = t) ↔ ∃ p ∈ pairs, p.2.toNat = t := by
      constructor
      · rintro ⟨x, hx, rfl⟩
        obtain ⟨p, hp, rfl⟩ := (hijMem x).mp hx
        exact ⟨p, hp, rfl⟩
      · rintro ⟨p, hp, rfl⟩
        exact ⟨_, (hijMem _).mpr ⟨p, hp, rfl⟩, rfl⟩
    rw [hsecond, or_assoc, or_left_comm]
  obtain ⟨table, chunks, htable, hchunks, hall, honly⟩ :=
    @chunks_spec maps proc.mem _ fun t ht => hin t ((htargets t).mp ht)
  refine ⟨seedTable orders.addresses ijHis [], chunks, ?_, fun r x => ?_,
    nodup_seedTable List.nodup_nil,
    fun t => ?_⟩
  · simp only [UserspaceBypass.read, hij, hread, hmaps, htable, hchunks, Option.bind_eq_bind,
      Option.bind_some, Option.pure_def]
  · rw [mem_entries_seedTable, hijMem]
    exact or_iff_right List.not_mem_nil
  · rw [← htargets]
    constructor
    · rintro ⟨chunk, hchunk, ht⟩
      exact (honly chunk hchunk t ht).1
    · exact hall t

end UserspaceBypass
