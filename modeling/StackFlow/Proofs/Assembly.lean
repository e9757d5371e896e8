import Mathlib.Data.List.Forall2
import Mathlib.Data.List.Induction
import StackFlow.Assembler
import StackFlow.Proofs.Checked

/-!
# Assembled code

What assembly gives is read off the steps alone: the emissions and their addresses (`layout`), and
the address to which a label is bound last (`BoundAt`).  An assembler that has taken the steps is
described by them (`Describes`).  So `finish` succeeds exactly if every jump reaches its label, and
then every jump is decoded to the address of its label again.
-/

namespace StackFlow.Assembler

variable {heading : Heading} {done rest steps : List Step} {step : Step} {asm next : Assembler}
  {id address line label target : Nat} {emitted : Emitted} {error : AssemblyError}

namespace Step

def width : Step → Nat
  | .emit op _ | .jump op _ => op.width
  | .newLabel | .bind _ | .setLine _ | .currentAddress => 0

def lineAfter (line : Nat) : Step → Nat
  | .setLine next => next
  | .newLabel | .bind _ | .currentAddress | .emit _ _ | .jump _ _ => line

def emission? (id address line : Nat) : Step → Option Emitted
  | .emit op operand => some ⟨{ address, op, operand, line, scope := id }, none⟩
  | .jump op label => some ⟨{ address, op, operand := .arg 0, line, scope := id }, some label⟩
  | .newLabel | .bind _ | .setLine _ | .currentAddress => none

def label? : Step → Option Nat
  | .bind label | .jump _ label => some label
  | .newLabel | .setLine _ | .currentAddress | .emit _ _ => none

end Step

/-! ## What the steps say -/

def extent : List Step → Nat
  | [] => 0
  | step :: rest => step.width + extent rest

def lastLine (line : Nat) (steps : List Step) : Nat :=
  steps.foldl Step.lineAfter line

def layout (id : Nat) : Nat → Nat → List Step → List Emitted
  | _, _, [] => []
  | address, line, step :: rest =>
      (step.emission? id address line).toList ++
        layout id (address + step.width) (step.lineAfter line) rest

def emissions (heading : Heading) (steps : List Step) : List Emitted :=
  layout heading.id heading.entry 1 steps

def BoundAt (heading : Heading) (steps : List Step) (label address : Nat) : Prop :=
  ∃ before after, steps = before ++ .bind label :: after ∧ .bind label ∉ after ∧
    address = heading.entry + extent before

def OwnLabels (steps : List Step) : Prop :=
  ∀ pair ∈ steps.zipIdx, ∀ label ∈ pair.1.label?, label < (steps.take pair.2).count .newLabel

instance (steps : List Step) : Decidable (OwnLabels steps) :=
  inferInstanceAs (Decidable (∀ pair ∈ steps.zipIdx, ∀ label ∈ pair.1.label?,
    label < (steps.take pair.2).count .newLabel))

@[simp] theorem extent_append (first second : List Step) :
    extent (first ++ second) = extent first + extent second := by
  induction first with
  | nil => simp [extent]
  | cons step rest ih => simp [extent, ih, Nat.add_assoc]

@[simp] theorem extent_singleton (step : Step) : extent [step] = step.width := by
  simp [extent]

@[simp] theorem lastLine_append_singleton :
    lastLine line (steps ++ [step]) = step.lineAfter (lastLine line steps) := by
  simp [lastLine]

theorem layout_append_singleton :
    layout id address line (steps ++ [step]) = layout id address line steps ++
      (step.emission? id (address + extent steps) (lastLine line steps)).toList := by
  induction steps generalizing address line with
  | nil => simp [layout, extent, lastLine]
  | cons first rest ih => simp [layout, ih, extent, lastLine, Nat.add_assoc]

theorem OwnLabels.lt_count (own : OwnLabels steps) (split : steps = done ++ step :: rest)
    (uses : step.label? = some label) : label < done.count .newLabel := by
  have found : (step, done.length) ∈ steps.zipIdx := by
    rw [List.mem_zipIdx_iff_getElem?, split]
    simp
  simpa [split] using own _ found label uses

theorem exists_step_of_mem_layout (member : emitted ∈ layout id address line steps)
    (uses : emitted.label = some label) :
    ∃ before step after, steps = before ++ step :: after ∧ step.label? = some label := by
  induction steps generalizing address line with
  | nil => cases member
  | cons first rest ih =>
      rcases List.mem_append.1 member with here | later
      · refine ⟨[], first, rest, rfl, ?_⟩
        cases first <;> simp_all [Step.emission?, Step.label?]
      · obtain ⟨before, step, after, rfl, found⟩ := ih later
        exact ⟨first :: before, step, after, rfl, found⟩

theorem OwnLabels.lt_count_of_mem (own : OwnLabels steps)
    (member : emitted ∈ emissions heading steps) (uses : emitted.label = some label) :
    label < steps.count .newLabel := by
  obtain ⟨before, step, after, rfl, found⟩ := exists_step_of_mem_layout member uses
  have lt := own.lt_count rfl found
  simp only [List.count_append]
  omega

theorem boundAt_append_singleton :
    BoundAt heading (steps ++ [step]) label address ↔
      step = .bind label ∧ address = heading.entry + extent steps ∨
        step ≠ .bind label ∧ BoundAt heading steps label address := by
  constructor
  · rintro ⟨before, after, split, absent, rfl⟩
    rcases List.eq_nil_or_concat after with rfl | ⟨middle, last, rfl⟩
    · obtain ⟨rfl, rfl⟩ := List.append_singleton_inj.1 split
      exact .inl ⟨rfl, rfl⟩
    · rw [List.concat_eq_append, ← List.cons_append, ← List.append_assoc] at split
      obtain ⟨rfl, rfl⟩ := List.append_singleton_inj.1 split
      simp only [List.concat_eq_append, List.mem_append, List.mem_singleton, not_or] at absent
      exact .inr ⟨Ne.symm absent.2, before, middle, rfl, absent.1, rfl⟩
  · rintro (⟨rfl, rfl⟩ | ⟨ne, before, after, rfl, absent, rfl⟩)
    · exact ⟨steps, [], rfl, List.not_mem_nil, rfl⟩
    · exact ⟨before, after ++ [step], by simp, by simp [absent, Ne.symm ne], rfl⟩

theorem exists_boundAt_iff : (∃ address, BoundAt heading steps label address) ↔
    .bind label ∈ steps := by
  induction steps using List.reverseRecOn with
  | nil => simp [BoundAt]
  | append_singleton steps step ih =>
      simp only [boundAt_append_singleton, exists_or, exists_and_left, ih, exists_eq, and_true,
        List.mem_append, List.mem_singleton]
      by_cases here : step = .bind label
      · simp [here]
      · simp [here, Ne.symm here]

theorem BoundAt.le (bound : BoundAt heading steps label address) :
    address ≤ heading.entry + extent steps := by
  obtain ⟨before, after, rfl, -, rfl⟩ := bound
  simp only [extent_append]
  omega

/-! ## One step -/

structure Taken (step : Step) (asm next : Assembler) : Prop where
  heading_eq : next.heading = asm.heading
  nextAddress_eq : next.nextAddress = asm.nextAddress + step.width
  line_eq : next.line = step.lineAfter asm.line
  code_eq : next.code =
    asm.code ++ (step.emission? asm.heading.id asm.nextAddress asm.line).toList
  length_labels : next.labels.length = asm.labels.length + [step].count .newLabel
  labels_iff : ∀ label address, next.labels[label]? = some (some address) ↔
    step = .bind label ∧ address = asm.nextAddress ∨
      step ≠ .bind label ∧ asm.labels[label]? = some (some address)

theorem emit_eq_ok {op : Opcode} (operand : Operand) (uses : Option Nat)
    (fits : asm.nextAddress + op.width < Word.limit) :
    asm.emit op operand uses = .ok { asm with
      nextAddress := asm.nextAddress + op.width
      code := asm.code ++
        [⟨⟨asm.nextAddress, op, operand, asm.line, asm.heading.id, false⟩, uses⟩] } := by
  simp [emit, Instruction.checkedNextAddress, Instruction.nextAddress, Word.checked, fits, ok_bind,
    pure, Except.pure]

theorem exists_taken (own : ∀ label, step.label? = some label → label < asm.labels.length)
    (fits : asm.nextAddress + step.width < Word.limit) :
    ∃ next answer, asm.step step = .ok (next, answer) ∧ Taken step asm next := by
  cases step with
  | newLabel =>
      refine ⟨_, _, rfl, rfl, rfl, rfl, by simp [Step.emission?], by simp, ?_⟩
      intro label address
      by_cases known : label < asm.labels.length
      · simp [List.getElem?_append, known]
      · simp [List.getElem?_append, known, List.getElem?_singleton]
  | bind label =>
      have known : asm.hasLabel label = true := by simp [hasLabel, own label rfl]
      refine ⟨_, _, if_pos known, rfl, rfl, rfl, by simp [Step.emission?], by simp, ?_⟩
      intro other address
      by_cases same : label = other
      · subst same
        simp [own label rfl, eq_comm]
      · simp [same]
  | setLine line => exact ⟨_, _, rfl, rfl, rfl, rfl, by simp [Step.emission?], by simp, by simp⟩
  | currentAddress => exact ⟨_, _, rfl, rfl, rfl, rfl, by simp [Step.emission?], by simp, by simp⟩
  | emit op operand =>
      have emitted := emit_eq_ok operand none fits
      exact ⟨_, _, bind_eq_ok_iff.2 ⟨_, emitted, rfl⟩, rfl, rfl, rfl, rfl, by simp, by simp⟩
  | jump op label =>
      have emitted := emit_eq_ok (.arg 0) (some label) fits
      exact ⟨_, _, bind_eq_ok_iff.2 ⟨_, emitted, rfl⟩, rfl, rfl, rfl, rfl, by simp, by simp⟩

/-! ## All steps -/

structure Describes (heading : Heading) (done : List Step) (asm : Assembler) : Prop where
  heading_eq : asm.heading = heading
  nextAddress_eq : asm.nextAddress = heading.entry + extent done
  line_eq : asm.line = lastLine 1 done
  code_eq : asm.code = emissions heading done
  length_labels : asm.labels.length = done.count .newLabel
  labels_iff : ∀ label address,
    asm.labels[label]? = some (some address) ↔ BoundAt heading done label address

theorem describes_start (heading : Heading) : Describes heading [] (start heading) where
  heading_eq := rfl
  nextAddress_eq := rfl
  line_eq := rfl
  code_eq := rfl
  length_labels := rfl
  labels_iff := by simp [start, BoundAt]

theorem Describes.append (described : Describes heading done asm) (taken : Taken step asm next) :
    Describes heading (done ++ [step]) next where
  heading_eq := taken.heading_eq.trans described.heading_eq
  nextAddress_eq := by
    simp [taken.nextAddress_eq, described.nextAddress_eq, Nat.add_assoc]
  line_eq := by
    simp [taken.line_eq, described.line_eq]
  code_eq := by
    simp [taken.code_eq, described.code_eq, described.heading_eq, described.nextAddress_eq,
      described.line_eq, emissions, layout_append_singleton]
  length_labels := by
    simp [taken.length_labels, described.length_labels]
  labels_iff := by
    simp [taken.labels_iff, described.labels_iff, described.nextAddress_eq,
      boundAt_append_singleton]

theorem exists_run (own : OwnLabels steps) (fits : heading.entry + extent steps < Word.limit)
    (split : steps = done ++ rest) (described : Describes heading done asm) :
    ∃ next, asm.run rest = .ok next ∧ Describes heading steps next := by
  induction rest generalizing done asm with
  | nil =>
      rw [List.append_nil] at split
      exact ⟨asm, rfl, split ▸ described⟩
  | cons step rest ih =>
      have known : ∀ label, step.label? = some label → label < asm.labels.length := by
        intro label uses
        rw [described.length_labels]
        exact own.lt_count split uses
      have room : asm.nextAddress + step.width < Word.limit := by
        simp only [split, extent_append, extent] at fits
        rw [described.nextAddress_eq]
        omega
      obtain ⟨next, answer, stepped, taken⟩ := exists_taken known room
      obtain ⟨last, ran, ends⟩ := ih (by simp [split]) (described.append taken)
      refine ⟨last, ?_, ends⟩
      rw [run, stepped]
      exact ran

/-! ## Jumps -/

/-- A jump that can be encoded: its label is bound, its operation carries a jump, and what it adds
to its address is not negative. -/
def Reaches (heading : Heading) (steps : List Step) (emitted : Emitted) : Prop :=
  ∀ label, emitted.label = some label → ∃ target, BoundAt heading steps label target ∧
    (emitted.instr.op.addressing = some .absolute ∨
      emitted.instr.op.addressing = some .relative ∧
        emitted.instr.address + heading.jumpWidth ≤ target)

/-- Why a jump cannot be encoded, with the error that says so. -/
inductive Offends (heading : Heading) (steps : List Step) (emitted : Emitted) :
    AssemblyError → Prop where
  | unbound {label : Nat} (uses : emitted.label = some label) (never : .bind label ∉ steps) :
      Offends heading steps emitted (.unbound label heading.name)
  | noJump {label target : Nat} (uses : emitted.label = some label)
      (bound : BoundAt heading steps label target)
      (carries : emitted.instr.op.addressing = none) :
      Offends heading steps emitted (.noJump emitted.instr.op emitted.instr.address)
  | unreachable {label target : Nat} (uses : emitted.label = some label)
      (bound : BoundAt heading steps label target)
      (relative : emitted.instr.op.addressing = some .relative)
      (word : emitted.instr.address + heading.jumpWidth < Word.limit)
      (short : target < emitted.instr.address + heading.jumpWidth) :
      Offends heading steps emitted (.unreachable emitted.instr.address target heading.name)
  | overflow {label target : Nat} (uses : emitted.label = some label)
      (bound : BoundAt heading steps label target)
      (relative : emitted.instr.op.addressing = some .relative)
      (beyond : Word.limit ≤ emitted.instr.address + heading.jumpWidth) :
      Offends heading steps emitted (.fault .overflow)

theorem reaches_of_boundAt (uses : emitted.label = some label)
    (bound : BoundAt heading steps label target)
    (carries : emitted.instr.op.addressing = some .absolute ∨
      emitted.instr.op.addressing = some .relative ∧
        emitted.instr.address + heading.jumpWidth ≤ target) : Reaches heading steps emitted := by
  intro other found
  obtain rfl := Option.some.inj (uses.symm.trans found)
  exact ⟨target, bound, carries⟩

theorem reaches_or_offends (heading : Heading) (steps : List Step) (emitted : Emitted) :
    Reaches heading steps emitted ∨ ∃ error, Offends heading steps emitted error := by
  cases uses : emitted.label with
  | none => exact .inl fun label found => by simp [uses] at found
  | some label =>
      by_cases binds : .bind label ∈ steps
      · obtain ⟨target, bound⟩ := (@exists_boundAt_iff heading steps label).2 binds
        cases carries : emitted.instr.op.addressing with
        | none => exact .inr ⟨_, .noJump uses bound carries⟩
        | some addressing =>
            cases addressing with
            | absolute => exact .inl (reaches_of_boundAt uses bound (.inl carries))
            | relative =>
                by_cases short : target < emitted.instr.address + heading.jumpWidth
                · by_cases word : emitted.instr.address + heading.jumpWidth < Word.limit
                  · exact .inr ⟨_, .unreachable uses bound carries word short⟩
                  · exact .inr ⟨_, .overflow uses bound carries (Nat.not_lt.1 word)⟩
                · exact .inl (reaches_of_boundAt uses bound (.inr ⟨carries, Nat.not_lt.1 short⟩))
      · exact .inr ⟨_, .unbound uses binds⟩

structure Encoded (heading : Heading) (steps : List Step) (emitted : Emitted)
    (instr : Instruction) : Prop where
  same : instr =
    { emitted.instr with operand := instr.operand, isJumpTarget := instr.isJumpTarget }
  operand : emitted.label = none → instr.operand = emitted.instr.operand
  decodes : ∀ label, emitted.label = some label → ∃ target, BoundAt heading steps label target ∧
    instr.jumpDestination 0 heading.jumpWidth = some target

namespace Describes

variable (described : Describes heading steps asm)

include described

theorem target_eq_ok (bound : BoundAt heading steps label target) :
    asm.target label = .ok target := by
  rw [Assembler.target, (described.labels_iff label target).2 bound]

theorem target_eq_error (known : label < steps.count .newLabel) (never : .bind label ∉ steps) :
    asm.target label = .error (.unbound label heading.name) := by
  cases found : asm.labels[label]? with
  | none =>
      have beyond := List.getElem?_eq_none_iff.1 found
      rw [described.length_labels] at beyond
      omega
  | some entry =>
      cases entry with
      | none => rw [Assembler.target, found, described.heading_eq]
      | some address =>
          have bound := (described.labels_iff label address).1 found
          exact absurd (exists_boundAt_iff.1 ⟨address, bound⟩) never

theorem link_of_offends (own : OwnLabels steps) (member : emitted ∈ emissions heading steps)
    (offends : Offends heading steps emitted error) : asm.link emitted = .error error := by
  cases offends with
  | unbound uses never =>
      have unbound := described.target_eq_error (own.lt_count_of_mem member uses) never
      simp [link, uses, encode, unbound, bind, Except.bind]
  | noJump uses bound carries =>
      simp [link, uses, encode, described.target_eq_ok bound, carries, bind, Except.bind, throw,
        throwThe, MonadExceptOf.throw]
  | unreachable uses bound relative word short =>
      simp [link, uses, encode, described.target_eq_ok bound, relative, described.heading_eq,
        Word.checked, word, short, Except.mapError, bind, Except.bind, throw, throwThe,
        MonadExceptOf.throw]
  | overflow uses bound relative beyond =>
      simp [link, uses, encode, described.target_eq_ok bound, relative, described.heading_eq,
        Word.checked, Nat.not_lt.2 beyond, Except.mapError, bind, Except.bind]

theorem exists_encode {instr : Instruction} (bound : BoundAt heading steps label target)
    (word : target < Word.limit)
    (carries : instr.op.addressing = some .absolute ∨
      instr.op.addressing = some .relative ∧ instr.address + heading.jumpWidth ≤ target) :
    ∃ arg, asm.encode instr label = .ok arg ∧
      { instr with operand := .arg arg }.jumpDestination 0 heading.jumpWidth = some target := by
  rcases carries with absolute | ⟨relative, reach⟩
  · refine ⟨target, ?_, ?_⟩
    · simp [encode, described.target_eq_ok bound, absolute, bind, Except.bind, pure, Except.pure]
    · simp [Instruction.jumpDestination, absolute, Operand.arg?, Word.ofNat?, word]
  · have base : instr.address + heading.jumpWidth < Word.limit := by omega
    have rest : target - (instr.address + heading.jumpWidth) < Word.limit := by omega
    refine ⟨target - (instr.address + heading.jumpWidth), ?_, ?_⟩
    · simp [encode, described.target_eq_ok bound, relative, described.heading_eq, Word.checked,
        base, Nat.not_lt.2 reach, Except.mapError, bind, Except.bind, pure, Except.pure]
    · simp [Instruction.jumpDestination, relative, Operand.arg?, Word.ofNat?, base, rest,
        Nat.add_sub_cancel' reach, word]

theorem link_of_reaches (fits : heading.entry + extent steps < Word.limit)
    (reaches : Reaches heading steps emitted) :
    ∃ instr, asm.link emitted = .ok instr ∧ Encoded heading steps emitted instr := by
  cases uses : emitted.label with
  | none => exact ⟨emitted.instr, by simp [link, uses], rfl, fun _ => rfl, by simp [uses]⟩
  | some label =>
      obtain ⟨target, bound, carries⟩ := reaches label uses
      obtain ⟨arg, encoded, decodes⟩ :=
        described.exists_encode bound (Nat.lt_of_le_of_lt bound.le fits) carries
      refine ⟨{ emitted.instr with operand := .arg arg }, ?_, rfl, by simp [uses], ?_⟩
      · simp [link, uses, encoded, bind, Except.bind, pure, Except.pure]
      · intro other found
        obtain rfl := Option.some.inj (uses.symm.trans found)
        exact ⟨target, bound, decodes⟩

section

variable (own : OwnLabels steps) (fits : heading.entry + extent steps < Word.limit)
  (member : emitted ∈ emissions heading steps)

include own fits member

theorem exists_link_iff :
    (∃ instr, asm.link emitted = .ok instr) ↔ Reaches heading steps emitted := by
  constructor
  · rintro ⟨instr, linked⟩
    refine (reaches_or_offends heading steps emitted).resolve_right ?_
    rintro ⟨error, offends⟩
    cases linked.symm.trans (described.link_of_offends own member offends)
  · intro reaches
    obtain ⟨instr, linked, -⟩ := described.link_of_reaches fits reaches
    exact ⟨instr, linked⟩

theorem link_eq_error_iff :
    asm.link emitted = .error error ↔ Offends heading steps emitted error := by
  refine ⟨fun failed => ?_, described.link_of_offends own member⟩
  rcases reaches_or_offends heading steps emitted with reaches | ⟨other, offends⟩
  · obtain ⟨instr, linked, -⟩ := described.link_of_reaches fits reaches
    cases linked.symm.trans failed
  · have same := (described.link_of_offends own member offends).symm.trans failed
    rwa [Except.error.inj same] at offends

theorem encoded_of_link {instr : Instruction} (linked : asm.link emitted = .ok instr) :
    Encoded heading steps emitted instr := by
  have reaches := (described.exists_link_iff own fits member).1 ⟨instr, linked⟩
  obtain ⟨other, hother, encoded⟩ := described.link_of_reaches fits reaches
  rwa [Except.ok.inj (linked.symm.trans hother)]

end

theorem mem_boundAddresses_iff :
    address ∈ asm.boundAddresses ↔ ∃ label, BoundAt heading steps label address := by
  rw [boundAddresses, List.mem_filterMap]
  simp [List.mem_iff_getElem?, described.labels_iff]

end Describes

/-! ## The assembled scope -/

def Contiguous : Nat → List Instruction → Prop
  | _, [] => True
  | address, instr :: rest => instr.address = address ∧ Contiguous instr.nextAddress rest

theorem contiguous_layout :
    Contiguous address ((layout id address line steps).map Emitted.instr) := by
  induction steps generalizing address line with
  | nil => trivial
  | cons step rest ih =>
      cases step <;>
        simp [layout, Step.emission?, Step.width, Step.lineAfter, Contiguous,
          Instruction.nextAddress, ih]

theorem Contiguous.congr {first second : List Instruction}
    (same : List.Forall₂ (fun before after =>
      after.address = before.address ∧ after.op = before.op) first second)
    (contiguous : Contiguous address first) : Contiguous address second := by
  induction same generalizing address with
  | nil => trivial
  | cons head tail ih =>
      refine ⟨head.1.trans contiguous.1, ih ?_⟩
      simpa [Instruction.nextAddress, head] using contiguous.2

theorem Contiguous.pairwise {code : List Instruction} (contiguous : Contiguous address code) :
    (∀ instr ∈ code, address ≤ instr.address) ∧
      code.Pairwise fun first second => first.address ≤ second.address := by
  induction code generalizing address with
  | nil => simp
  | cons first rest ih =>
      obtain ⟨above, ordered⟩ := ih contiguous.2
      have start := contiguous.1
      have later : ∀ instr ∈ rest, address ≤ instr.address := by
        intro instr member
        have le := above instr member
        rw [Instruction.nextAddress] at le
        omega
      constructor
      · simp only [List.forall_mem_cons]
        exact ⟨Nat.le_of_eq start.symm, later⟩
      · exact List.pairwise_cons.2 ⟨fun instr member => start ▸ later instr member, ordered⟩

structure Linked (heading : Heading) (steps : List Step) (emitted : Emitted)
    (instr : Instruction) : Prop extends Encoded heading steps emitted instr where
  marked : instr.isJumpTarget = true ↔ ∃ label, BoundAt heading steps label instr.address

theorem finish_eq_ok_iff {scope : Scope} :
    asm.finish = .ok scope ↔ ∃ code, asm.code.mapM asm.link = .ok code ∧
      Scope.ofInstructions asm.heading (code.map fun instr =>
        { instr with isJumpTarget := asm.boundAddresses.contains instr.address }) = scope := by
  simp only [finish, bind_eq_ok_iff, pure_eq_ok_iff]

theorem finish_eq_error_iff :
    asm.finish = .error error ↔ asm.code.mapM asm.link = .error error := by
  unfold finish
  cases asm.code.mapM asm.link <;> simp [bind, Except.bind, pure, Except.pure]

theorem forall₂_of_mapM_eq_ok {ε α β : Type} {apply : α → Except ε β} {items : List α}
    {results : List β} (mapped : items.mapM apply = .ok results) :
    List.Forall₂ (fun item result => item ∈ items ∧ apply item = .ok result) items results := by
  have same : List.Forall₂ (· = ·) (items.map apply) (results.map .ok) := by
    rw [List.forall₂_eq_eq_eq]
    exact mapM_eq_ok_iff.1 mapped
  rw [List.forall₂_map_left_iff, List.forall₂_map_right_iff] at same
  exact (List.forall₂_and_left _ _).2 ⟨fun _ member => member, same⟩

namespace Describes

variable (described : Describes heading steps asm) (own : OwnLabels steps)
  (fits : heading.entry + extent steps < Word.limit)

include described own fits

theorem exists_finish_iff : (∃ scope, asm.finish = .ok scope) ↔
    ∀ emitted ∈ emissions heading steps, Reaches heading steps emitted := by
  have each : (∀ emitted ∈ emissions heading steps, Reaches heading steps emitted) ↔
      ∀ emitted ∈ asm.code, ∃ instr, asm.link emitted = .ok instr := by
    rw [described.code_eq]
    exact forall₂_congr fun emitted member => (described.exists_link_iff own fits member).symm
  rw [each, ← exists_mapM_eq_ok_iff]
  simp [finish_eq_ok_iff]

theorem finish_eq_error_iff_offends : asm.finish = .error error ↔
    ∃ before emitted after, emissions heading steps = before ++ emitted :: after ∧
      (∀ earlier ∈ before, Reaches heading steps earlier) ∧
      Offends heading steps emitted error := by
  rw [finish_eq_error_iff, mapM_eq_error_iff, described.code_eq]
  refine exists_congr fun before => exists_congr fun emitted => exists_congr fun after => ?_
  refine and_congr_right fun split => and_congr ?_ ?_
  · refine forall₂_congr fun earlier member => described.exists_link_iff own fits ?_
    simp [split, member]
  · exact described.link_eq_error_iff own fits (by simp [split])

theorem linked_of_finish {scope : Scope} (finished : asm.finish = .ok scope) :
    scope.toHeading = heading ∧ Contiguous heading.entry scope.instructions ∧
      List.Forall₂ (Linked heading steps) (emissions heading steps) scope.instructions := by
  obtain ⟨code, mapped, rfl⟩ := finish_eq_ok_iff.1 finished
  rw [described.code_eq] at mapped
  have linked : List.Forall₂ (Linked heading steps) (emissions heading steps)
      (code.map fun instr =>
        { instr with isJumpTarget := asm.boundAddresses.contains instr.address }) := by
    refine List.forall₂_map_right_iff.2 ((forall₂_of_mapM_eq_ok mapped).imp ?_)
    rintro emitted instr ⟨member, hinstr⟩
    obtain ⟨same, operand, decodes⟩ := described.encoded_of_link own fits member hinstr
    refine ⟨⟨?_, operand, decodes⟩, ?_⟩
    · rw [same]
    · simp [described.mem_boundAddresses_iff]
  have contiguous := contiguous_layout.congr (List.forall₂_map_left_iff.2 (linked.imp
    fun emitted instr holds => by rw [holds.same]; exact ⟨rfl, rfl⟩))
  have unsorted : (Scope.ofInstructions asm.heading _).instructions = _ :=
    Scope.sortByAddress_eq_self contiguous.pairwise.2
  rw [unsorted]
  exact ⟨described.heading_eq, contiguous, linked⟩

end Describes

/-- Assembly of steps that use own labels and whose addresses are words.  It gives a scope exactly
if every jump reaches its label, and else the error of the first that does not.  The instructions
of the scope are the emitted ones, one right after the other.  A jump is decoded to the address to
which its label was bound last. -/
theorem finish_encodes_emissions (heading : Heading) (steps : List Step) (own : OwnLabels steps)
    (fits : heading.entry + extent steps < Word.limit) :
    ∃ asm, (start heading).run steps = .ok asm ∧
      ((∃ scope, asm.finish = .ok scope) ↔
        ∀ emitted ∈ emissions heading steps, Reaches heading steps emitted) ∧
      (∀ error, asm.finish = .error error ↔
        ∃ before emitted after, emissions heading steps = before ++ emitted :: after ∧
          (∀ earlier ∈ before, Reaches heading steps earlier) ∧
          Offends heading steps emitted error) ∧
      ∀ scope, asm.finish = .ok scope → scope.toHeading = heading ∧
        Contiguous heading.entry scope.instructions ∧
        List.Forall₂ (Linked heading steps) (emissions heading steps) scope.instructions := by
  obtain ⟨asm, ran, described⟩ := exists_run own fits rfl (describes_start heading)
  exact ⟨asm, ran, described.exists_finish_iff own fits,
    fun error => described.finish_eq_error_iff_offends own fits,
    fun scope => described.linked_of_finish own fits⟩

def forwardSample : List Step :=
  [.newLabel, .jump .jumpForward 0, .emit .nop .none, .bind 0, .emit .returnValue .none]

def backwardSample : List Step :=
  [.newLabel, .bind 0, .jump .jumpForward 0]

theorem samples_encode :
    (∃ asm scope instr rest, (start {}).run forwardSample = .ok asm ∧ asm.finish = .ok scope ∧
      scope.instructions = instr :: rest ∧
      ∃ target, BoundAt {} forwardSample 0 target ∧ instr.jumpDestination 0 3 = some target) ∧
    ∃ asm, (start {}).run backwardSample = .ok asm ∧
      asm.finish = .error (.unreachable 0 0 "f") := by
  constructor
  · obtain ⟨asm, ran, succeeds, -, result⟩ :=
      finish_encodes_emissions {} forwardSample (by decide) (by decide)
    have listed : emissions {} forwardSample =
        [⟨⟨0, .jumpForward, .arg 0, 1, 0, false⟩, some 0⟩, ⟨⟨3, .nop, .none, 1, 0, false⟩, none⟩,
          ⟨⟨4, .returnValue, .none, 1, 0, false⟩, none⟩] := rfl
    rw [listed] at succeeds result
    have bound : BoundAt {} forwardSample 0 4 :=
      ⟨[.newLabel, .jump .jumpForward 0, .emit .nop .none], _, rfl, by decide, rfl⟩
    obtain ⟨scope, finished⟩ := succeeds.2 (List.forall_mem_cons.2
      ⟨reaches_of_boundAt rfl bound (.inr ⟨rfl, by decide⟩), by simp [Reaches]⟩)
    obtain ⟨-, -, linked⟩ := result scope finished
    obtain ⟨instr, rest, head, -, split⟩ := List.forall₂_cons_left_iff.1 linked
    exact ⟨asm, scope, instr, rest, ran, finished, split, head.decodes 0 rfl⟩
  · obtain ⟨asm, ran, -, fails, -⟩ :=
      finish_encodes_emissions {} backwardSample (by decide) (by decide)
    refine ⟨asm, ran, (fails _).2 ⟨[], _, [], rfl, by simp, ?_⟩⟩
    exact .unreachable rfl ⟨[.newLabel], _, rfl, by decide, rfl⟩ rfl (by decide) (by decide)

end StackFlow.Assembler
