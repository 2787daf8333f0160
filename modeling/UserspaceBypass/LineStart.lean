import UserspaceBypass.MapInvariant

/-! The translator in front of a line. Within a block control is not transferred, so that the lines
before it have let go of their temporaries; the constants of the run are as they were decoded, or
odd and one too low. -/

namespace UserspaceBypass

variable {world : World} {offset : Nat}

/-- The state in front of a line: blocks have been translated, and lines of the current one. -/
def Reached (t : TransState) : Prop :=
  ∃ world blocks emitted t₀ address lines canCheck own,
    translateBlocks world blocks .start = some (emitted, t₀) ∧
      translateLines world lines address canCheck t₀.atBlock = some (own, t) ∧
      (∀ b ∈ blocks, ∀ line ∈ b.2.lines, line.Decoded) ∧
      ∀ line ∈ lines, line.Proper ∧ line.name ∉ blockEnds

/-- What holds in front of a line. -/
structure Start (t : TransState) (stale : Finset ExprInt) : Prop where
  held : Held t.regMap none
  heap : t.heap.Matches stale

/-- Whatever a step makes or changes, every constant prints as it was decoded or one too low. -/
theorem Step.exists_matches {step : Step} (hdec : step.Decoded) {heap : Heap}
    {stale : Finset ExprInt} (h : heap.Matches stale) (world : World) (offset : Nat) :
    ∃ stale', (step.heapAfter world offset heap).Matches stale' := by
  cases step with
  | normal name args canCheck => exact ⟨_, h.purifyArgs hdec⟩
  | moveStack bytes => exact ⟨_, h.foldr_make world _⟩
  | returnAddress => exact ⟨_, h.foldr_make world _⟩
  | pushInt n => exact ⟨_, h.foldr_make world _⟩
  | _ => exact ⟨stale, h⟩

theorem stepsHeap_matches {steps : List Step} (hdec : AllEach Expr.Decoded steps) {heap : Heap}
    {stale : Finset ExprInt} (h : heap.Matches stale) (world : World) (offset : Nat) :
    ∃ stale', (stepsHeap world offset steps heap).Matches stale' := by
  induction steps generalizing heap stale with
  | nil => exact ⟨stale, h⟩
  | cons step steps ih =>
      obtain ⟨hstep, hsteps⟩ := List.forall_mem_cons.mp hdec
      obtain ⟨stale₁, h₁⟩ := step.exists_matches hstep h world offset
      exact ih hsteps h₁

/-- A line as a run over decoded lines translates it. -/
structure Emitted.Regular (world : World) (e : Emitted) : Prop where
  run : runSteps world e.offset (translate e.line e.blockEnd e.canCheck) e.before =
    some (e.text, e.after)
  map : MapInv e.before.regMap
  heap : ∃ stale, e.before.heap.Matches stale

theorem translateLines_regular {lines : List Line} {canCheck : List Bool} {t t' : TransState}
    {emitted : List Emitted} (hdec : ∀ line ∈ lines, line.Decoded) {stale : Finset ExprInt}
    (hm : MapInv t.regMap) (h : t.heap.Matches stale)
    (hrun : translateLines world lines offset canCheck t = some (emitted, t')) :
    (∀ e ∈ emitted, e.Regular world ∧ e.line ∈ lines) ∧ ∃ stale', t'.heap.Matches stale' := by
  induction lines generalizing offset canCheck t emitted stale with
  | nil =>
      cases hrun
      exact ⟨by simp, stale, h⟩
  | cons line lines ih =>
      obtain ⟨heap, flag, text, after, rest, hpatch, -, hsteps, hrest, rfl⟩ := translateLines_cons hrun
      obtain ⟨hline, hlines⟩ := List.forall_mem_cons.mp hdec
      have hbefore := h.miasmPatch hline hpatch
      obtain ⟨stale₁, h₁⟩ := stepsHeap_matches (translate_decoded hline lines.isEmpty flag)
        hbefore world (offset + line.l)
      have hm' : MapInv { t with heap := heap }.regMap := hm
      obtain ⟨hregular, hlast⟩ :=
        ih hlines (runSteps_mapInv hm' hsteps) (runSteps_heap hsteps ▸ h₁) hrest
      refine ⟨List.forall_mem_cons.mpr ⟨⟨⟨hsteps, hm, _, hbefore⟩, List.mem_cons_self⟩, ?_⟩, hlast⟩
      exact fun e he => ⟨(hregular e he).1, List.mem_cons_of_mem _ (hregular e he).2⟩

theorem translateBlocks_regular {blocks : List (Nat × Block)} {t t' : TransState}
    {emitted : List (Nat × List Emitted)} (hdec : ∀ b ∈ blocks, ∀ line ∈ b.2.lines, line.Decoded)
    {stale : Finset ExprInt} (h : t.heap.Matches stale)
    (hrun : translateBlocks world blocks t = some (emitted, t')) :
    (∀ b ∈ emitted, ∀ e ∈ b.2, e.Regular world ∧ ∃ b' ∈ blocks, e.line ∈ b'.2.lines) ∧
      ∃ stale', t'.heap.Matches stale' := by
  induction blocks generalizing t emitted stale with
  | nil =>
      cases hrun
      exact ⟨by simp, stale, h⟩
  | cons b blocks ih =>
      obtain ⟨first, t₁, rest, hfirst, hrest, rfl⟩ := translateBlocks_cons hrun
      obtain ⟨hb, hblocks⟩ := List.forall_mem_cons.mp hdec
      obtain ⟨hown, stale₁, h₁⟩ :=
        translateLines_regular hb (t := t.atBlock) mapInv_blockInit h hfirst
      obtain ⟨hothers, hlast⟩ := ih hblocks h₁ hrest
      refine ⟨List.forall_mem_cons.mpr ⟨fun e he => ?_, fun b' hb' e he => ?_⟩, hlast⟩
      · exact ⟨(hown e he).1, b, List.mem_cons_self, (hown e he).2⟩
      · obtain ⟨hregular, b'', hb'', hline⟩ := hothers b' hb' e he
        exact ⟨hregular, b'', List.mem_cons_of_mem _ hb'', hline⟩

theorem translateLines_temps {lines : List Line} {canCheck : List Bool} {t t' : TransState}
    {emitted : List Emitted} (hlines : ∀ line ∈ lines, line.Proper ∧ line.name ∉ blockEnds)
    (h : Temps t.regMap [])
    (hrun : translateLines world lines offset canCheck t = some (emitted, t')) :
    Temps t'.regMap [] := by
  induction lines generalizing offset canCheck t emitted with
  | nil =>
      cases hrun
      exact h
  | cons line lines ih =>
      obtain ⟨heap, flag, text, after, rest, -, -, hsteps, hrest, -⟩ := translateLines_cons hrun
      obtain ⟨⟨hproper, hname⟩, hrestLines⟩ := List.forall_mem_cons.mp hlines
      have hbefore : Temps { t with heap := heap }.regMap [] := h
      exact ih hrestLines (hbefore.line hproper.noTmp hname hsteps) hrest

theorem Reached.start {t : TransState} (h : Reached t) : ∃ stale, Start t stale := by
  obtain ⟨world, blocks, emitted, t₀, address, lines, canCheck, own, hblocks, hlines, hdec, hproper⟩ := h
  obtain ⟨-, stale₀, h₀⟩ := translateBlocks_regular hdec Heap.matches_fresh hblocks
  obtain ⟨-, stale, hstale⟩ := translateLines_regular
    (fun line hline => (hproper line hline).1.toDecoded) (t := t₀.atBlock) mapInv_blockInit h₀ hlines
  have htemps := translateLines_temps hproper (t := t₀.atBlock) temps_blockInit hlines
  exact ⟨stale, held_iff_temps.mpr htemps, hstale⟩

end UserspaceBypass
