import MiniLua.Proofs.Code.Emits

/-! What holds of the functions under construction at every moment. -/

namespace MiniLua

/-- An inner local has a higher cell than an outer one, and lies no less deep. -/
def Local.Inside (l l' : Local) : Prop := l'.cell < l.cell ∧ l'.depth ≤ l.depth

/-- Locals are numbered from the outermost on, and a jump out of a loop is a jump. -/
structure Builder.Tidy (b : Builder) : Prop where
  sorted : b.locals.Pairwise Local.Inside
  cells : ∀ l ∈ b.locals, l.cell < b.nextCell
  depths : ∀ l ∈ b.locals, l.depth ≤ b.depth
  room : b.nextCell ≤ b.cellCount
  cellCount : b.cellCount ≤ Builder.maxIndex
  constants : b.constants.size ≤ Instruction.wideLimit
  captures : b.captures.size ≤ Builder.maxIndex
  exits : ∀ jumps ∈ b.loops, ∀ exit ∈ jumps,
    ∃ i, b.code[exit]? = some i ∧ i.op = Opcode.jump.byte

/-- A capture of a local in scope, or of what the function itself captured. -/
def Builder.Supplies (b : Builder) : Capture → Prop
  | .cell n => ∃ l ∈ b.locals, l.cell = n
  | .upvalue n => n < b.captures.size

/-- Captures, and those of the functions around, are supplied by the next function around. -/
def Chained : Array Capture → List Builder → Prop
  | captures, [] => captures = #[]
  | captures, parent :: outer =>
    (∀ c ∈ captures, parent.Supplies c) ∧ Chained parent.captures outer

structure Assembly.Tidy (s : Assembly) : Prop where
  sound : s.heap.strings.Sound
  current : s.current.Tidy
  enclosing : ∀ b ∈ s.enclosing, b.Tidy
  chained : Chained s.current.captures s.enclosing

namespace Builder

variable {b b' : Builder}

theorem lt_foldl_min {locals : List Local} {n m : Nat} (h : n < m)
    (hall : ∀ l ∈ locals, n < l.cell) : n < locals.foldl (fun cell l ↦ min cell l.cell) m := by
  induction locals generalizing m with
  | nil => exact h
  | cons l locals ih =>
    refine ih ?_ fun l' hl' ↦ hall l' (List.mem_cons_of_mem _ hl')
    exact Nat.lt_min.mpr ⟨h, hall l List.mem_cons_self⟩

theorem foldl_min_le (locals : List Local) (m : Nat) :
    locals.foldl (fun cell l ↦ min cell l.cell) m ≤ m := by
  induction locals generalizing m with
  | nil => exact Nat.le_refl m
  | cons l locals ih => exact (ih _).trans (Nat.min_le_left _ _)

theorem tidy_start (name : String) {params : List String} (variadic : Bool) (line : Nat)
    (few : params.length ≤ 255) : (start name params variadic line).Tidy where
  sorted := by
    simp only [start, List.pairwise_reverse, List.pairwise_map]
    refine List.Pairwise.imp_of_mem (R := fun p q : String × Nat ↦ p.2 < q.2) ?_ ?_
    · exact fun _ _ h ↦ ⟨h, Nat.le_refl _⟩
    · rw [← List.pairwise_map (f := Prod.snd), List.zipIdx_map_snd]
      exact List.pairwise_lt_range'
  cells l hl := by
    simp only [start, List.mem_reverse, List.mem_map] at hl ⊢
    obtain ⟨⟨p, i⟩, hp, rfl⟩ := hl
    have hlt := (List.mem_zipIdx hp).2.1
    dsimp only
    omega
  depths l hl := by
    simp only [start, List.mem_reverse, List.mem_map] at hl ⊢
    obtain ⟨⟨p, i⟩, hp, rfl⟩ := hl
    exact Nat.le_refl _
  room := Nat.le_refl _
  cellCount := few.trans (by decide)
  constants := Nat.zero_le _
  captures := Nat.zero_le _
  exits := by simp [start]

namespace Tidy

theorem withCode (h : b.Tidy) (code : Array Instruction)
    (hcode : ∀ (i : Nat) (inst : Instruction), b.code[i]? = some inst →
      ∃ inst', code[i]? = some inst' ∧ inst'.op = inst.op) : { b with code }.Tidy :=
  { h with
    exits := fun jumps hjumps exit hexit ↦ by
      obtain ⟨i, hi, hop⟩ := h.exits jumps hjumps exit hexit
      obtain ⟨i', hi', hop'⟩ := hcode exit i hi
      exact ⟨i', hi', hop'.trans hop⟩ }

theorem emit (h : b.Tidy) (i : Instruction) : (b.emit i).Tidy :=
  { h.withCode (b.code.push i) (fun _ inst hinst ↦ ⟨inst, Kept.push _ _ hinst, rfl⟩) with }

theorem patch (h : b.Tidy) (at_ target : Nat) : (b.patch at_ target).Tidy := by
  refine h.withCode _ fun i inst hinst ↦ ?_
  have hi := b.getElem?_patch at_ target i
  rw [hinst] at hi
  split at hi
  · exact ⟨_, hi, rfl⟩
  · exact ⟨inst, hi, rfl⟩

theorem patchAll (h : b.Tidy) (jumps : List Nat) (target : Nat) :
    (b.patchAll jumps target).Tidy := by
  induction jumps generalizing b with
  | nil => exact h
  | cons at_ jumps ih => exact ih (h.patch at_ target)

theorem exitLoop (h : b.Tidy) : b.exitLoop.Tidy :=
  patchAll (b := { b with loops := b.loops.tail })
    { h with exits := fun jumps hjumps ↦ h.exits jumps (List.mem_of_mem_tail hjumps) } _ _

theorem addConstant (h : b.Tidy) {v : Value} {i : Nat} (hadd : b.addConstant v = .ok (i, b')) :
    b'.Tidy := by
  unfold Builder.addConstant at hadd
  split at hadd
  · cases hadd
    exact h
  · split at hadd
    · next hlt =>
      cases hadd
      exact { h with constants := by rw [Array.size_push]; exact hlt }
    · cases hadd

theorem addCapture (h : b.Tidy) {c : Capture} {i : Nat} (hadd : b.addCapture c = .ok (i, b')) :
    b'.Tidy := by
  unfold Builder.addCapture at hadd
  split at hadd
  · cases hadd
    exact h
  · split at hadd
    · next hlt =>
      cases hadd
      exact { h with captures := by rw [Array.size_push]; exact hlt }
    · cases hadd

theorem captureFrom {name : String} {found : Option Nat} {enclosing outer : List Builder}
    (h : b.Tidy) (henclosing : ∀ b ∈ enclosing, b.Tidy)
    (hcapture : b.captureFrom name enclosing = .ok (found, b', outer)) :
    b'.Tidy ∧ ∀ b ∈ outer, b.Tidy := by
  induction enclosing generalizing b b' found outer with
  | nil =>
    cases hcapture
    exact ⟨h, henclosing⟩
  | cons parent rest ih =>
    obtain ⟨hparent, hrest⟩ := List.forall_mem_cons.mp henclosing
    obtain ⟨cell, i, -, hadd, -, rfl⟩ | ⟨-, parent', rest', rfl, hmore⟩ :=
      captureFrom_eq_ok hcapture
    · exact ⟨h.addCapture hadd, henclosing⟩
    · obtain ⟨hmore, -, rfl⟩ | ⟨n, i, hmore, hadd, -⟩ := hmore
      · exact ⟨h, List.forall_mem_cons.mpr (ih hparent hrest hmore)⟩
      · exact ⟨h.addCapture hadd, List.forall_mem_cons.mpr (ih hparent hrest hmore)⟩

end Tidy

theorem mem_addCapture {c : Capture} {i : Nat} (h : b.addCapture c = .ok (i, b')) :
    ∀ c' ∈ b'.captures, c' ∈ b.captures ∨ c' = c := by
  unfold addCapture at h
  split at h
  · cases h
    exact fun _ ↦ .inl
  · split at h
    · cases h
      exact fun _ ↦ Array.mem_push.mp
    · cases h

theorem Gains.supplies (h : b.Gains b') {c : Capture} (hc : b.Supplies c) : b'.Supplies c := by
  cases c with
  | cell n =>
    rw [h.same]
    exact hc
  | upvalue n => exact (Array.getElem?_eq_some_iff.mp
      (h.captures (Array.getElem?_eq_getElem hc))).1

theorem chained_of_captureFrom {name : String} {found : Option Nat} {enclosing outer : List Builder}
    (h : b.captureFrom name enclosing = .ok (found, b', outer))
    (hchained : Chained b.captures enclosing) :
    Chained b'.captures outer ∧ ∀ i ∈ found, i < b'.captures.size := by
  induction enclosing generalizing b b' found outer with
  | nil =>
    cases h
    exact ⟨hchained, fun _ hi ↦ nomatch hi⟩
  | cons parent rest ih =>
    obtain ⟨hsupplied, hrest⟩ := hchained
    obtain ⟨cell, i, hcell, hadd, rfl, rfl⟩ | ⟨-, parent', rest', rfl, hmore⟩ :=
      captureFrom_eq_ok h
    · obtain ⟨l, hl, rfl⟩ := Option.map_eq_some_iff.mp hcell
      refine ⟨⟨fun c hc ↦ ?_, hrest⟩, ?_⟩
      · obtain hc | rfl := mem_addCapture hadd c hc
        · exact hsupplied c hc
        · exact ⟨l, List.mem_of_find?_eq_some hl, rfl⟩
      · rintro _ ⟨⟩
        exact (Array.getElem?_eq_some_iff.mp (addCapture_eq hadd).2.2).1
    · obtain ⟨hmore, rfl, rfl⟩ | ⟨n, i, hmore, hadd, rfl⟩ := hmore
      · have hgains := (gains_of_captureFrom hmore).1
        exact ⟨⟨fun c hc ↦ hgains.supplies (hsupplied c hc), (ih hmore hrest).1⟩,
          fun _ hi ↦ nomatch hi⟩
      · have hgains := (gains_of_captureFrom hmore).1
        obtain ⟨hchained, hlt⟩ := ih hmore hrest
        refine ⟨⟨fun c hc ↦ ?_, hchained⟩, ?_⟩
        · obtain hc | rfl := mem_addCapture hadd c hc
          · exact hgains.supplies (hsupplied c hc)
          · exact hlt n rfl
        · rintro _ ⟨⟩
          exact (Array.getElem?_eq_some_iff.mp (addCapture_eq hadd).2.2).1

namespace Tidy

theorem declare (h : b.Tidy) {name : String} {i : Nat} (hdeclare : b.declare name = .ok (i, b')) :
    b'.Tidy := by
  obtain ⟨-, hlt, rfl⟩ := Builder.declare_eq hdeclare
  exact { h with
    sorted := List.pairwise_cons.mpr ⟨fun l hl ↦ ⟨h.cells l hl, h.depths l hl⟩, h.sorted⟩
    cells := List.forall_mem_cons.mpr
      ⟨Nat.lt_succ_self _, fun l hl ↦ Nat.lt_succ_of_lt (h.cells l hl)⟩
    depths := List.forall_mem_cons.mpr ⟨Nat.le_refl _, h.depths⟩
    room := Nat.le_max_right _ _
    cellCount := Nat.max_le.mpr ⟨h.cellCount, hlt⟩ }

theorem openScope (h : b.Tidy) : b.openScope.Tidy :=
  { h with depths := fun l hl ↦ Nat.le_succ_of_le (h.depths l hl) }

theorem closeScope (h : b.Tidy) : b.closeScope.Tidy := by
  have hsplit : b.locals.takeWhile (fun l ↦ decide (b.depth - 1 < l.depth)) ++ b.closeScope.locals =
      b.locals := List.takeWhile_append_dropWhile
  have hsorted := h.sorted
  rw [← hsplit] at hsorted
  obtain ⟨-, hsorted, hacross⟩ := List.pairwise_append.mp hsorted
  have hsub : ∀ l ∈ b.closeScope.locals, l ∈ b.locals := fun l hl ↦
    (List.dropWhile_sublist _).subset hl
  refine { h with sorted := hsorted, cells := ?_, depths := ?_, room := ?_ }
  · exact fun l hl ↦ lt_foldl_min (h.cells l (hsub l hl)) fun l' hl' ↦ (hacross l' hl' l hl).1
  · intro l hl
    cases hlocals : b.closeScope.locals with
    | nil =>
      rw [hlocals] at hl
      cases hl
    | cons first rest =>
      have hfirst : ¬ b.depth - 1 < first.depth := by
        have hnot := List.head?_dropWhile_not (fun l : Local ↦ decide (b.depth - 1 < l.depth))
          b.locals
        have hhead : (b.locals.dropWhile fun l ↦ decide (b.depth - 1 < l.depth)).head? =
            some first := by
          change b.closeScope.locals.head? = _
          rw [hlocals]
          rfl
        rw [hhead] at hnot
        simpa using hnot
      rw [hlocals] at hl hsorted
      have hle : l.depth ≤ first.depth := by
        obtain rfl | hl := List.mem_cons.mp hl
        · exact Nat.le_refl _
        · exact ((List.pairwise_cons.mp hsorted).1 l hl).2
      change l.depth ≤ b.depth - 1
      omega
  · exact (foldl_min_le _ _).trans h.room

end Tidy

end Builder

theorem Assembly.Tidy.enterLoop {s : Assembly} (hs : s.Tidy) : s.enterLoop.Tidy :=
  ⟨hs.sound, { hs.current with
    exits := List.forall_mem_cons.mpr ⟨fun _ h ↦ (nomatch h), hs.current.exits⟩ }, hs.enclosing,
    hs.chained⟩

/-- A nested function begins. -/
theorem Assembly.Tidy.enter {s : Assembly} (hs : s.Tidy) (name : String) {params : List String}
    (variadic : Bool) (line : Nat) (few : params.length ≤ 255) :
    Assembly.Tidy { s with
      current := .start name params variadic line
      enclosing := s.current :: s.enclosing } :=
  ⟨hs.sound, Builder.tidy_start name variadic line few,
    List.forall_mem_cons.mpr ⟨hs.current, hs.enclosing⟩, ⟨fun _ h ↦ (by simp [Builder.start] at h),
      hs.chained⟩⟩

theorem Emits.tidy {d n : Nat} {s t : Assembly} (h : Emits d n s t) (hs : s.Tidy) : t.Tidy := by
  induction h with
  | refl => exact hs
  | trans _ _ ih ih' => exact ih' (ih hs)
  | line => exact ⟨hs.sound, { hs.current with }, hs.enclosing, hs.chained⟩
  | emit => exact ⟨hs.sound, hs.current.emit _, hs.enclosing, hs.chained⟩
  | patch => exact ⟨hs.sound, hs.current.patch _ _, hs.enclosing, hs.chained⟩
  | number _ added =>
    refine ⟨hs.sound, hs.current.addConstant added, hs.enclosing, ?_⟩
    rw [(Builder.addConstant_eq added).1]
    exact hs.chained
  | string added =>
    refine ⟨hs.sound.intern _, hs.current.addConstant added, hs.enclosing, ?_⟩
    rw [(Builder.addConstant_eq added).1]
    exact hs.chained
  | capture captured =>
    obtain ⟨hcurrent, houter⟩ := hs.current.captureFrom hs.enclosing captured
    exact ⟨hs.sound, hcurrent, houter, (Builder.chained_of_captureFrom captured hs.chained).1⟩
  | declare declared =>
    refine ⟨hs.sound, hs.current.declare declared, hs.enclosing, ?_⟩
    rw [(Builder.declare_eq declared).2.2]
    exact hs.chained
  | openScope => exact ⟨hs.sound, hs.current.openScope, hs.enclosing, hs.chained⟩
  | closeScope => exact ⟨hs.sound, hs.current.closeScope, hs.enclosing, hs.chained⟩
  | leave _ emitted jump inside =>
    refine ⟨hs.sound, { hs.current with exits := ?_ }, hs.enclosing, hs.chained⟩
    have hexits := hs.current.exits
    rw [inside] at hexits
    obtain ⟨hjumps, houter⟩ := List.forall_mem_cons.mp hexits
    exact List.forall_mem_cons.mpr ⟨List.forall_mem_cons.mpr ⟨⟨_, emitted, jump⟩, hjumps⟩, houter⟩
  | looped _ ih =>
    have ht := ih hs.enterLoop
    refine ⟨ht.sound, ht.current.exitLoop, ht.enclosing, ?_⟩
    rw [Assembly.exitLoop, Builder.exitLoop, Builder.captures_patchAll]
    exact ht.chained
  | @nested d n s t name params variadic parent outer pos _ few _ _ _ around ih =>
    have ht := ih (hs.enter name variadic pos.codeLine few)
    have henclosing := ht.enclosing
    have hchained := ht.chained
    rw [around] at henclosing hchained
    obtain ⟨hparent, houter⟩ := List.forall_mem_cons.mp henclosing
    exact ⟨ht.sound, { hparent with }, houter, hchained.2⟩

end MiniLua
