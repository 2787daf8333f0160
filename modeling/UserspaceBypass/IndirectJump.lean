import UserspaceBypass.LibDict
import UserspaceBypass.LibSearch
import UserspaceBypass.TranslateBlock

/-! `indirect_jump.py`, the analysis in front of the emission. `find` goes through all lines: a direct
CALL of a block sends `dfs` through the callee, which adds the return address to the entry of every
RET it meets; a direct CALL of anything else is a missing callee; and every indirect jump gets an
entry of its own. -/

namespace UserspaceBypass

open Search

/-- The addresses behind the RET lines of the block at the given address. -/
def retEnds (blocks : List (Nat × Block)) (address : Nat) : List Nat :=
  match Dict.get blocks address with
  | none => []
  | some block => ((Block.ends address block.lines).filter fun e => e.2.name = "RET").map Prod.fst

/-- `[ret_addr]` added to the entries of all RET lines of a block. -/
def recordRets (blocks : List (Nat × Block)) (ret : Nat) (jumpTable : List (Nat × List Nat))
    (address : Nat) : List (Nat × List Nat) :=
  (retEnds blocks address).foldl (fun table r => Dict.push table r ret) jumpTable

/-- The successors of a block; `none` is the `KeyError` of an address without one. -/
def successors (blocks : List (Nat × Block)) (address : Nat) : Option (List Nat) :=
  (Dict.get blocks address).map Block.bto

/-- `dfs(entry, blocks, ret_addr)` with an empty `visited`. The depth is bounded by the number of
blocks. -/
def dfs (blocks : List (Nat × Block)) (entry ret : Nat) (jumpTable : List (Nat × List Nat)) :
    Option (List (Nat × List Nat)) :=
  (search (successors blocks) (recordRets blocks ret) (blocks.length + 1) entry ([], jumpTable)).map
    Prod.snd

/-- The two results that `find` builds up. -/
structure Sites where
  jumpTable : List (Nat × List Nat)
  missing : List Nat

/-- `line.name[0] == 'J'` -/
def Line.isJ (line : Line) : Bool := line.name.toList.head? = some 'J'

/-- The body of the loop of `find`, for a line that ends at `offset`. -/
def findLine (blocks : List (Nat × Block)) (offset : Nat) (line : Line) (sites : Sites) :
    Option Sites :=
  if line.name = "RET" then some { sites with jumpTable := Dict.ensure sites.jumpTable offset }
  else if line.name = "CALL" ∨ line.isJ then
    match line.args with
    | [] => none
    | .loc callee :: _ =>
        if line.name ≠ "CALL" then some sites
        else if callee ∈ Dict.keys blocks then
          (dfs blocks callee offset sites.jumpTable).map fun table =>
            { sites with jumpTable := table }
        else some { sites with missing := sites.missing.insert callee }
    | _ => some { sites with jumpTable := Dict.ensure sites.jumpTable offset }
  else some sites

/-- `find`, with the set of missing callees as a list. -/
def find (blocks : List (Nat × Block)) (jumpTable : List (Nat × List Nat)) : Option Sites :=
  (blocks.flatMap fun b => Block.ends b.1 b.2.lines).foldlM
    (fun sites e => findLine blocks e.1 e.2 sites) ⟨jumpTable, []⟩

/-- All lines, with the addresses behind them. -/
def allEnds (blocks : List (Nat × Block)) : List (Nat × Line) :=
  blocks.flatMap fun b => Block.ends b.1 b.2.lines

/-- The callee of a direct CALL. -/
def Line.callee (line : Line) : Option Nat :=
  match line.args with
  | .loc callee :: _ => if line.name = "CALL" then some callee else none
  | _ => none

/-- A RET, or a jump or CALL whose operand is no label. -/
def Line.IsIndirect (line : Line) : Prop :=
  line.name = "RET" ∨
    (line.name = "CALL" ∨ line.isJ = true) ∧ ∀ a rest, line.args ≠ .loc a :: rest

/-- What a dictionary of decoded blocks is: one block for an address, successors that are blocks, and
an operand for every jump and CALL. -/
structure Decoded (blocks : List (Nat × Block)) : Prop where
  nodup : (Dict.keys blocks).Nodup
  closed : ∀ b ∈ blocks, ∀ s ∈ b.2.bto, s ∈ Dict.keys blocks
  operand : ∀ e ∈ allEnds blocks, e.2.name = "CALL" ∨ e.2.isJ = true → e.2.args ≠ []

/-- From the callee of a direct CALL in front of `x`, a RET in front of `r` can be reached. -/
def ReturnsTo (blocks : List (Nat × Block)) (line : Line) (r : Nat) : Prop :=
  ∃ callee, line.callee = some callee ∧ callee ∈ Dict.keys blocks ∧
    ∃ a, Reach (successors blocks) callee a ∧ r ∈ retEnds blocks a

section Dfs

variable {blocks : List (Nat × Block)} {ret : Nat}

theorem recordRets_spec (table : List (Nat × List Nat)) (address : Nat) :
    (∀ r x, x ∈ Dict.entries (recordRets blocks ret table address) r ↔
      x ∈ Dict.entries table r ∨ x = ret ∧ r ∈ retEnds blocks address) ∧
    (∀ k ∈ Dict.keys table, k ∈ Dict.keys (recordRets blocks ret table address)) ∧
    ((Dict.keys table).Nodup → (Dict.keys (recordRets blocks ret table address)).Nodup) := by
  unfold recordRets
  generalize retEnds blocks address = ends
  induction ends generalizing table with
  | nil => simp
  | cons e ends ih =>
      obtain ⟨hentries, hkeys, hnodup⟩ := ih (Dict.push table e ret)
      rw [List.foldl_cons]
      refine ⟨fun r x => ?_, fun k hk => hkeys k ?_, fun hd => hnodup ?_⟩
      · rw [hentries, Dict.entries_push, List.mem_cons]
        split_ifs with hr
        · subst hr
          simp only [List.mem_append, List.mem_singleton, true_or, and_true]
          tauto
        · simp only [hr, false_or]
      · rw [Dict.keys_push]
        exact (Dict.mem_keys_ensure table e).mpr (Or.inl hk)
      · rw [Dict.keys_push]
        exact Dict.nodup_ensure table e hd

theorem recordAll_spec (order : List Nat) (table : List (Nat × List Nat)) :
    (∀ r x, x ∈ Dict.entries (order.foldl (recordRets blocks ret) table) r ↔
      x ∈ Dict.entries table r ∨ x = ret ∧ ∃ a ∈ order, r ∈ retEnds blocks a) ∧
    (∀ k ∈ Dict.keys table, k ∈ Dict.keys (order.foldl (recordRets blocks ret) table)) ∧
    ((Dict.keys table).Nodup → (Dict.keys (order.foldl (recordRets blocks ret) table)).Nodup) := by
  induction order generalizing table with
  | nil => simp
  | cons a order ih =>
      obtain ⟨hfirst, hkeys₁, hnodup₁⟩ := @recordRets_spec blocks ret table a
      obtain ⟨hrest, hkeys₂, hnodup₂⟩ := ih (recordRets blocks ret table a)
      rw [List.foldl_cons]
      refine ⟨fun r x => ?_, fun k hk => hkeys₂ k (hkeys₁ k hk), fun hd => hnodup₂ (hnodup₁ hd)⟩
      rw [hrest, hfirst]
      simp only [List.mem_cons, exists_eq_or_imp]
      tauto

theorem successors_closed (hdec : Decoded blocks) :
    Closed (successors blocks) (Dict.keys blocks).toFinset := by
  intro a ha
  obtain ⟨block, hblock⟩ := Dict.exists_get (List.mem_toFinset.mp ha)
  refine ⟨block.bto, by rw [successors, hblock]; rfl, fun b hb => List.mem_toFinset.mpr ?_⟩
  exact hdec.closed _ (Dict.mem_of_get hblock) b hb

/-- `dfs` ends, and adds the return address to the RET lines that can be reached. -/
theorem dfs_spec (hdec : Decoded blocks) {entry : Nat} (hentry : entry ∈ Dict.keys blocks) (ret : Nat)
    (table : List (Nat × List Nat)) :
    ∃ table', dfs blocks entry ret table = some table' ∧
      (∀ r x, x ∈ Dict.entries table' r ↔ x ∈ Dict.entries table r ∨
        x = ret ∧ ∃ a, Reach (successors blocks) entry a ∧ r ∈ retEnds blocks a) ∧
      (∀ k ∈ Dict.keys table, k ∈ Dict.keys table') ∧
      ((Dict.keys table).Nodup → (Dict.keys table').Nodup) := by
  have hcard : (Dict.keys blocks).toFinset.card < blocks.length + 1 := by
    refine Nat.lt_succ_of_le ((List.toFinset_card_le _).trans ?_)
    rw [Dict.keys, List.length_map]
  obtain ⟨seen, order, hrun, horder⟩ : ∃ seen order : List Nat,
      search (successors blocks) (recordRets blocks ret) (blocks.length + 1) entry ([], table) =
        some (seen, order.foldl (recordRets blocks ret) table) ∧
      ∀ b, b ∈ order ↔ Reach (successors blocks) entry b :=
    search_exact (successors_closed hdec) hcard (List.mem_toFinset.mpr hentry) table
  obtain ⟨hentries, hkeys, hnodup⟩ := @recordAll_spec blocks ret order table
  refine ⟨_, by rw [dfs, hrun]; rfl, fun r x => ?_, hkeys, hnodup⟩
  rw [hentries]
  simp only [horder]

/-- Whatever blocks `dfs` comes to, it adds nothing but the return address. -/
theorem dfs_grows {entry : Nat} {table table' : List (Nat × List Nat)}
    (h : dfs blocks entry ret table = some table') :
    (∀ r x, x ∈ Dict.entries table' r → x ∈ Dict.entries table r ∨ x = ret) ∧
      (∀ r x, x ∈ Dict.entries table r → x ∈ Dict.entries table' r) ∧
      (∀ k ∈ Dict.keys table, k ∈ Dict.keys table') ∧
      ((Dict.keys table).Nodup → (Dict.keys table').Nodup) := by
  obtain ⟨st, hrun, rfl⟩ := Option.map_eq_some_iff.mp h
  obtain ⟨order, horder⟩ := search_visits hrun
  obtain ⟨hentries, hkeys, hnodup⟩ := @recordAll_spec blocks ret order table
  rw [horder]
  refine ⟨fun r x hx => ?_, fun r x hx => (hentries r x).mpr (Or.inl hx), hkeys, hnodup⟩
  exact ((hentries r x).mp hx).imp_right And.left

end Dfs

/-- What one line adds to the two results, wherever the search comes to. -/
structure LineGrows (blocks : List (Nat × Block)) (offset : Nat) (line : Line)
    (sites sites' : Sites) : Prop where
  entries : ∀ r x, x ∈ Dict.entries sites'.jumpTable r →
    x ∈ Dict.entries sites.jumpTable r ∨ x = offset ∧ line.callee.isSome
  kept : ∀ r x, x ∈ Dict.entries sites.jumpTable r → x ∈ Dict.entries sites'.jumpTable r
  keys : ∀ k ∈ Dict.keys sites.jumpTable, k ∈ Dict.keys sites'.jumpTable
  nodup : (Dict.keys sites.jumpTable).Nodup → (Dict.keys sites'.jumpTable).Nodup
  indirect : line.IsIndirect → offset ∈ Dict.keys sites'.jumpTable
  missing : ∀ c, c ∈ sites'.missing ↔
    c ∈ sites.missing ∨ line.callee = some c ∧ c ∉ Dict.keys blocks
  missingNodup : sites.missing.Nodup → sites'.missing.Nodup

/-- On dictionaries whose edges stay inside, the return sites are known as well. -/
structure LineSpec (blocks : List (Nat × Block)) (offset : Nat) (line : Line)
    (sites sites' : Sites) : Prop extends LineGrows blocks offset line sites sites' where
  returns : ∀ r x, x ∈ Dict.entries sites'.jumpTable r ↔
    x ∈ Dict.entries sites.jumpTable r ∨ x = offset ∧ ReturnsTo blocks line r

section Find

variable {blocks : List (Nat × Block)}

/-- A line that is no direct CALL. -/
theorem lineGrows_ensure {offset : Nat} {line : Line} (hcallee : line.callee = none) (sites : Sites) :
    LineGrows blocks offset line sites
      { sites with jumpTable := Dict.ensure sites.jumpTable offset } where
  entries r x hx := by
    rw [Dict.entries_ensure] at hx
    exact Or.inl hx
  kept r x hx := by
    rw [Dict.entries_ensure]
    exact hx
  keys k hk := (Dict.mem_keys_ensure _ _).mpr (Or.inl hk)
  nodup hd := Dict.nodup_ensure _ _ hd
  indirect _ := (Dict.mem_keys_ensure _ _).mpr (Or.inr rfl)
  missing c := by simp [hcallee]
  missingNodup h := h

theorem lineGrows_same {offset : Nat} {line : Line} (hcallee : line.callee = none)
    (hdirect : ¬line.IsIndirect) (sites : Sites) : LineGrows blocks offset line sites sites where
  entries r x hx := Or.inl hx
  kept r x hx := hx
  keys k hk := hk
  nodup hd := hd
  indirect h := absurd h hdirect
  missing c := by simp [hcallee]
  missingNodup h := h

theorem callee_eq_some {line : Line} {c : Nat} {rest : List Expr} (hname : line.name = "CALL")
    (hargs : line.args = .loc c :: rest) : line.callee = some c := by
  rw [Line.callee, hargs]
  exact if_pos hname

theorem callee_eq_none {line : Line}
    (h : line.name ≠ "CALL" ∨ ∀ a rest, line.args ≠ .loc a :: rest) : line.callee = none := by
  unfold Line.callee
  split
  · rename_i c rest hargs
    exact if_neg (h.resolve_right fun hno => hno c rest hargs)
  · rfl

/-- A direct CALL of a block. -/
theorem lineGrows_known {offset c : Nat} {line : Line} (hcallee : line.callee = some c)
    (hdirect : ¬line.IsIndirect) (hknown : c ∈ Dict.keys blocks) {sites sites' : Sites}
    (h : (dfs blocks c offset sites.jumpTable).map (fun table => { sites with jumpTable := table }) =
      some sites') : LineGrows blocks offset line sites sites' := by
  obtain ⟨table, hdfs, rfl⟩ := Option.map_eq_some_iff.mp h
  obtain ⟨hentries, hkept, hkeys, hnodup⟩ := dfs_grows hdfs
  refine ⟨fun r x hx => (hentries r x hx).imp_right fun heq => ⟨heq, by rw [hcallee]; rfl⟩,
    hkept, hkeys, hnodup, fun hind => absurd hind hdirect, fun c' => ?_, id⟩
  refine ⟨Or.inl, fun hmem => hmem.elim id ?_⟩
  rintro ⟨heq, hnot⟩
  cases hcallee.symm.trans heq
  exact absurd hknown hnot

/-- A direct CALL of anything else. -/
theorem lineGrows_missing {offset c : Nat} {line : Line} (hcallee : line.callee = some c)
    (hdirect : ¬line.IsIndirect) (hnot : c ∉ Dict.keys blocks) (sites : Sites) :
    LineGrows blocks offset line sites { sites with missing := sites.missing.insert c } where
  entries r x hx := Or.inl hx
  kept r x hx := hx
  keys k hk := hk
  nodup hd := hd
  indirect h := absurd h hdirect
  missing c' := by
    simp only [hcallee, Option.some.injEq, List.mem_insert_iff]
    constructor
    · rintro (rfl | h)
      · exact Or.inr ⟨rfl, hnot⟩
      · exact Or.inl h
    · rintro (h | ⟨rfl, -⟩)
      · exact Or.inr h
      · exact Or.inl rfl
  missingNodup h := h.insert

theorem findLine_grows {offset : Nat} {line : Line} {sites sites' : Sites}
    (h : findLine blocks offset line sites = some sites') :
    LineGrows blocks offset line sites sites' := by
  rw [findLine] at h
  by_cases hret : line.name = "RET"
  · rw [if_pos hret] at h
    cases h
    exact lineGrows_ensure (callee_eq_none (Or.inl (by rw [hret]; decide))) sites
  rw [if_neg hret] at h
  by_cases hjump : line.name = "CALL" ∨ line.isJ = true
  · rw [if_pos hjump] at h
    cases hargs : line.args with
    | nil =>
        rw [hargs] at h
        cases h
    | cons arg rest =>
        rw [hargs] at h
        cases arg with
        | loc c =>
            have hdirect : ¬line.IsIndirect := by
              rintro (h | ⟨-, h⟩)
              · exact hret h
              · exact h c rest hargs
            dsimp only at h
            split_ifs at h with hcall hknown
            · cases h
              exact lineGrows_same (callee_eq_none (Or.inl hcall)) hdirect sites
            · exact lineGrows_known (callee_eq_some (not_not.mp hcall) hargs) hdirect hknown h
            · cases h
              exact lineGrows_missing (callee_eq_some (not_not.mp hcall) hargs) hdirect hknown sites
        | _ =>
            cases h
            refine lineGrows_ensure (callee_eq_none (Or.inr fun a rest' h => ?_)) sites
            rw [hargs] at h
            cases h
  · rw [if_neg hjump] at h
    cases h
    have hcallee : line.callee = none := callee_eq_none (Or.inl fun h => hjump (Or.inl h))
    refine lineGrows_same hcallee ?_ sites
    rintro (h | ⟨h, -⟩)
    · exact hret h
    · exact hjump h

/-- Where every edge stays inside, the search ends, and has found the return sites. -/
theorem findLine_spec (hdec : Decoded blocks) {offset : Nat} {line : Line}
    (he : (offset, line) ∈ allEnds blocks) (sites : Sites) :
    ∃ sites', findLine blocks offset line sites = some sites' ∧
      LineSpec blocks offset line sites sites' := by
  suffices hfound : ∃ sites', findLine blocks offset line sites = some sites' ∧
      ∀ r x, x ∈ Dict.entries sites'.jumpTable r ↔
        x ∈ Dict.entries sites.jumpTable r ∨ x = offset ∧ ReturnsTo blocks line r by
    obtain ⟨sites', hrun, hreturns⟩ := hfound
    exact ⟨sites', hrun, findLine_grows hrun, hreturns⟩
  have hnone : line.callee = none → ∀ r x, x ∈ Dict.entries sites.jumpTable r ↔
      x ∈ Dict.entries sites.jumpTable r ∨ x = offset ∧ ReturnsTo blocks line r := by
    intro hcallee r x
    simp [ReturnsTo, hcallee]
  have hensure : line.callee = none → ∀ r x,
      x ∈ Dict.entries (Dict.ensure sites.jumpTable offset) r ↔
        x ∈ Dict.entries sites.jumpTable r ∨ x = offset ∧ ReturnsTo blocks line r := by
    intro hcallee r x
    rw [Dict.entries_ensure]
    exact hnone hcallee r x
  by_cases hret : line.name = "RET"
  · exact ⟨_, if_pos hret, hensure (callee_eq_none (Or.inl (by rw [hret]; decide)))⟩
  rw [findLine, if_neg hret]
  by_cases hjump : line.name = "CALL" ∨ line.isJ = true
  · rw [if_pos hjump]
    cases hargs : line.args with
    | nil => exact absurd hargs (hdec.operand _ he hjump)
    | cons arg rest =>
        cases arg with
        | loc c =>
            dsimp only
            split_ifs with hcall hknown
            · exact ⟨_, rfl, hnone (callee_eq_none (Or.inl hcall))⟩
            · obtain ⟨table, hdfs, hentries, -, -⟩ := dfs_spec hdec hknown offset sites.jumpTable
              refine ⟨{ sites with jumpTable := table }, by rw [hdfs]; rfl, fun r x => ?_⟩
              rw [hentries]
              simp [ReturnsTo, callee_eq_some (not_not.mp hcall) hargs, hknown]
            · refine ⟨_, rfl, fun r x => ⟨Or.inl, fun h => h.elim id ?_⟩⟩
              rintro ⟨-, c', hc', hknown', -⟩
              cases (callee_eq_some (not_not.mp hcall) hargs).symm.trans hc'
              exact absurd hknown' hknown
        | _ =>
            have hcallee : line.callee = none :=
              callee_eq_none (Or.inr fun a rest' h => by rw [hargs] at h; cases h)
            exact ⟨_, rfl, hensure hcallee⟩
  · rw [if_neg hjump]
    exact ⟨_, rfl, hnone (callee_eq_none (Or.inl fun h => hjump (Or.inl h)))⟩

/-- What the lines up to some point have added to the seed, wherever the searches end. -/
structure FindGrows (blocks : List (Nat × Block)) (ends : List (Nat × Line))
    (sites sites' : Sites) : Prop where
  entries : ∀ r x, x ∈ Dict.entries sites'.jumpTable r → x ∈ Dict.entries sites.jumpTable r ∨
    ∃ line, (x, line) ∈ ends ∧ line.callee.isSome
  kept : ∀ r x, x ∈ Dict.entries sites.jumpTable r → x ∈ Dict.entries sites'.jumpTable r
  keys : ∀ k ∈ Dict.keys sites.jumpTable, k ∈ Dict.keys sites'.jumpTable
  nodup : (Dict.keys sites.jumpTable).Nodup → (Dict.keys sites'.jumpTable).Nodup
  indirect : ∀ e ∈ ends, e.2.IsIndirect → e.1 ∈ Dict.keys sites'.jumpTable
  missing : ∀ c, c ∈ sites'.missing ↔ c ∈ sites.missing ∨
    (∃ e ∈ ends, e.2.callee = some c) ∧ c ∉ Dict.keys blocks
  missingNodup : sites.missing.Nodup → sites'.missing.Nodup

structure LinesSpec (blocks : List (Nat × Block)) (ends : List (Nat × Line)) (sites sites' : Sites) :
    Prop extends FindGrows blocks ends sites sites' where
  returns : ∀ r x, x ∈ Dict.entries sites'.jumpTable r ↔ x ∈ Dict.entries sites.jumpTable r ∨
    ∃ line, (x, line) ∈ ends ∧ ReturnsTo blocks line r

theorem findLines_grows {ends : List (Nat × Line)} {sites sites' : Sites}
    (h : ends.foldlM (fun sites e => findLine blocks e.1 e.2 sites) sites = some sites') :
    FindGrows blocks ends sites sites' := by
  induction ends generalizing sites with
  | nil =>
      cases h
      exact ⟨fun r x => Or.inl, fun r x => id, fun k => id, id, by simp, by simp, id⟩
  | cons e ends ih =>
      rw [List.foldlM_cons] at h
      obtain ⟨mid, hmid, hrest⟩ := Option.bind_eq_some_iff.mp h
      have hline := findLine_grows hmid
      have hlines := ih hrest
      refine ⟨fun r x hx => ?_, fun r x hx => hlines.kept r x (hline.kept r x hx),
        fun k hk => hlines.keys k (hline.keys k hk), fun hd => hlines.nodup (hline.nodup hd),
        fun e' he' hind => ?_, fun c => ?_, fun hd => hlines.missingNodup (hline.missingNodup hd)⟩
      · rcases hlines.entries r x hx with hx | ⟨line, hmem, hcallee⟩
        · rcases hline.entries r x hx with hx | ⟨rfl, hcallee⟩
          · exact Or.inl hx
          · exact Or.inr ⟨e.2, List.mem_cons_self, hcallee⟩
        · exact Or.inr ⟨line, List.mem_cons_of_mem _ hmem, hcallee⟩
      · rcases List.mem_cons.mp he' with rfl | he'
        · exact hlines.keys _ (hline.indirect hind)
        · exact hlines.indirect e' he' hind
      · rw [hlines.missing, hline.missing, or_assoc]
        rw [List.exists_mem_cons_iff, or_and_right]

theorem findLines_spec (hdec : Decoded blocks) {ends : List (Nat × Line)}
    (hends : ∀ e ∈ ends, e ∈ allEnds blocks) (sites : Sites) :
    ∃ sites', ends.foldlM (fun sites e => findLine blocks e.1 e.2 sites) sites = some sites' ∧
      LinesSpec blocks ends sites sites' := by
  suffices hfound : ∃ sites',
      ends.foldlM (fun sites e => findLine blocks e.1 e.2 sites) sites = some sites' ∧
        ∀ r x, x ∈ Dict.entries sites'.jumpTable r ↔ x ∈ Dict.entries sites.jumpTable r ∨
          ∃ line, (x, line) ∈ ends ∧ ReturnsTo blocks line r by
    obtain ⟨sites', hrun, hreturns⟩ := hfound
    exact ⟨sites', hrun, findLines_grows hrun, hreturns⟩
  induction ends generalizing sites with
  | nil => exact ⟨sites, rfl, by simp⟩
  | cons e ends ih =>
      obtain ⟨he, hrest⟩ := List.forall_mem_cons.mp hends
      obtain ⟨mid, hmid, hline⟩ := findLine_spec hdec he sites
      obtain ⟨sites', hrun, hreturns⟩ := ih hrest mid
      refine ⟨sites', ?_, fun r x => ?_⟩
      · rw [List.foldlM_cons, hmid]
        exact hrun
      · rw [hreturns, hline.returns, or_assoc]
        refine or_congr_right ⟨?_, ?_⟩
        · rintro (⟨rfl, h⟩ | ⟨line, hmem, h⟩)
          · exact ⟨e.2, List.mem_cons_self, h⟩
          · exact ⟨line, List.mem_cons_of_mem _ hmem, h⟩
        · rintro ⟨line, hmem, h⟩
          rcases List.mem_cons.mp hmem with rfl | hmem
          · exact Or.inl ⟨rfl, h⟩
          · exact Or.inr ⟨line, hmem, h⟩

theorem find_grows {seed : List (Nat × List Nat)} {sites : Sites} (h : find blocks seed = some sites) :
    FindGrows blocks (allEnds blocks) ⟨seed, []⟩ sites := findLines_grows h

end Find

/-- **Return sites.** On every dictionary whose edges stay inside, and from every seed, `find` ends.
The targets under any address are those of the seed and the return addresses of the direct CALL lines
of known callees from which a RET that ends there can be reached; every RET and every indirect jump
and CALL has an entry; and the missing callees are listed once each. -/
theorem find_exact {blocks : List (Nat × Block)} (hdec : Decoded blocks)
    {seed : List (Nat × List Nat)} (hseed : (Dict.keys seed).Nodup) :
    ∃ sites, find blocks seed = some sites ∧
      (∀ r x, x ∈ Dict.entries sites.jumpTable r ↔ x ∈ Dict.entries seed r ∨
        ∃ line callee a, (x, line) ∈ allEnds blocks ∧ line.callee = some callee ∧
          callee ∈ Dict.keys blocks ∧ Reach (successors blocks) callee a ∧ r ∈ retEnds blocks a) ∧
      (∀ e ∈ allEnds blocks, e.2.IsIndirect → e.1 ∈ Dict.keys sites.jumpTable) ∧
      (Dict.keys sites.jumpTable).Nodup ∧
      (∀ c, c ∈ sites.missing ↔
        (∃ e ∈ allEnds blocks, e.2.callee = some c) ∧ c ∉ Dict.keys blocks) ∧
      sites.missing.Nodup := by
  obtain ⟨sites, hrun, hspec⟩ := findLines_spec hdec (fun _ => id) ⟨seed, []⟩
  refine ⟨sites, hrun, fun r x => ?_, hspec.indirect, hspec.nodup hseed, fun c => ?_,
    hspec.missingNodup List.nodup_nil⟩
  · rw [hspec.returns]
    refine or_congr_right ⟨?_, ?_⟩
    · rintro ⟨line, hmem, callee, hcallee, hknown, a, hreach, hr⟩
      exact ⟨line, callee, a, hmem, hcallee, hknown, hreach, hr⟩
    · rintro ⟨line, callee, a, hmem, hcallee, hknown, hreach, hr⟩
      exact ⟨line, hmem, callee, hcallee, hknown, a, hreach, hr⟩
  · rw [hspec.missing]
    simp

/-- `CALL 0x401020`, the RET it returns to, and a callee that loops before its RET. -/
def callBlocks : List (Nat × Block) :=
  [(0x401000, ⟨[{ name := "CALL", args := [.loc 0x401020], l := 5 }], [0x401005]⟩),
    (0x401005, ⟨[{ name := "RET", args := [], l := 1 }], []⟩),
    (0x401020, ⟨[{ name := "JZ", args := [.loc 0x401020], l := 2 }], [0x401020, 0x401022]⟩),
    (0x401022, ⟨[{ name := "RET", args := [], l := 1 }], []⟩)]

theorem decoded_callBlocks : Decoded callBlocks := by
  refine ⟨by decide, by decide, ?_⟩
  simp [allEnds, callBlocks, Block.ends, Line.isJ]

/-- The RET of the callee, behind the loop, gets the return address. -/
theorem find_exact_callBlocks :
    ∃ sites, find callBlocks [] = some sites ∧
      0x401005 ∈ Dict.entries sites.jumpTable 0x401023 ∧ 0x401006 ∈ Dict.keys sites.jumpTable := by
  have hseed : (Dict.keys ([] : List (Nat × List Nat))).Nodup := List.nodup_nil
  obtain ⟨sites, hrun, hentries, hkeys, -⟩ := find_exact decoded_callBlocks hseed
  have hedge : Edge (successors callBlocks) 0x401020 0x401022 := ⟨_, rfl, by decide⟩
  refine ⟨sites, hrun, (hentries _ _).mpr (Or.inr ?_),
    hkeys (0x401006, { name := "RET", args := [], l := 1 }) ?_ (Or.inl rfl)⟩
  · exact ⟨{ name := "CALL", args := [.loc 0x401020], l := 5 }, 0x401020, 0x401022,
      List.mem_cons_self, rfl, by decide, .single hedge, by decide⟩
  · exact List.mem_cons_of_mem _ List.mem_cons_self

end UserspaceBypass
