import RegisterMachine.Proofs.Assembly.Outcome
import RegisterMachine.Proofs.Assembly.Safety

/-! # Code and data in memory

The words of a program come first, and the blocks that its data lines ask for follow them without
gaps (`Consecutive`).  From that alone the blocks are disjoint, lie after the code, and end where
memory ends at the latest.  The labels are in the order of their addresses, even those that are left
when a source is refused (`sorted_ofSections`). -/

namespace RegisterMachine
namespace Assembly

/-! ## Blocks -/

/-- A block of words in memory. -/
structure Block where
  /-- The address of its first word. -/
  first : Nat
  /-- How many words it has. -/
  count : Nat
deriving DecidableEq, Repr

namespace Block

/-- The address after its last word. -/
def stop (b : Block) : Nat :=
  b.first + b.count

/-- The addresses of its words. -/
def addresses (b : Block) : List Nat :=
  List.range' b.first b.count

theorem mem_addresses_iff {b : Block} {address : Nat} :
    address ∈ b.addresses ↔ b.first ≤ address ∧ address < b.stop :=
  List.mem_range'_1

end Block

/-- **Blocks that follow one another** without gaps from one address up to another. -/
inductive Consecutive : Nat → List Block → Nat → Prop
  | nil {start : Nat} : Consecutive start [] start
  | cons {start stop count : Nat} {bs : List Block} (h : Consecutive (start + count) bs stop) :
      Consecutive start (⟨start, count⟩ :: bs) stop

namespace Consecutive
variable {start stop : Nat} {bs : List Block}

theorem le (h : Consecutive start bs stop) : start ≤ stop := by
  induction h with
  | nil => exact Nat.le_refl _
  | cons _ ih => omega

theorem bounds (h : Consecutive start bs stop) : ∀ b ∈ bs, start ≤ b.first ∧ b.stop ≤ stop := by
  induction h with
  | nil => simp
  | @cons start stop count bs h ih =>
    intro b hb
    rcases List.mem_cons.mp hb with rfl | hb
    · exact ⟨Nat.le_refl _, h.le⟩
    · obtain ⟨hfirst, hstop⟩ := ih b hb
      exact ⟨by omega, hstop⟩

theorem pairwise_disjoint (h : Consecutive start bs stop) :
    bs.Pairwise fun b c => List.Disjoint b.addresses c.addresses := by
  induction h with
  | nil => exact .nil
  | @cons start stop count bs h ih =>
    refine List.pairwise_cons.mpr ⟨fun c hc address hthis hlater => ?_, ih⟩
    -- all that comes later begins where this block ends, or after that
    have hafter : start + count ≤ c.first := (h.bounds c hc).1
    have hbefore : address < start + count := (Block.mem_addresses_iff.mp hthis).2
    have hle : c.first ≤ address := (Block.mem_addresses_iff.mp hlater).1
    omega

end Consecutive

/-- The blocks of allocations, one after the other. -/
def blocksFrom : Nat → List Allocation → List Block
  | _, [] => []
  | base, a :: as => ⟨base, a.count⟩ :: blocksFrom (base + a.count) as

theorem totalCount_cons (a : Allocation) (as : List Allocation) :
    totalCount (a :: as) = a.count + totalCount as := by
  induction as using List.reverseRecOn with
  | nil => simp [totalCount]
  | append_singleton as b ih =>
    rw [← List.cons_append, totalCount_concat, totalCount_concat, ih, Nat.add_assoc]

theorem dataLabels_cons (base : Nat) (a : Allocation) (as : List Allocation) :
    dataLabels base (a :: as) = (a.name, base) :: dataLabels (base + a.count) as := by
  induction as using List.reverseRecOn with
  | nil => simp [dataLabels, totalCount]
  | append_singleton as b ih =>
    rw [← List.cons_append, dataLabels_concat, dataLabels_concat, ih, totalCount_cons,
      Nat.add_assoc]
    rfl

theorem consecutive_blocksFrom (base : Nat) (as : List Allocation) :
    Consecutive base (blocksFrom base as) (base + totalCount as) := by
  induction as generalizing base with
  | nil => exact .nil
  | cons a as ih =>
    rw [totalCount_cons, ← Nat.add_assoc]
    exact .cons (ih (base + a.count))

/-- **A data line reserves a block**: the label it asks for stands at the first word of as many as
it asks for. -/
def Reserves (labels : LabelTable) (l : Line) (b : Block) : Prop :=
  ∃ a, Allocates l.text a ∧ labels.address? a.name = some b.first ∧ b.count = a.count

theorem reserves_blocksFrom {labels : LabelTable} {base : Nat} {ls : List Line}
    {as : List Allocation} (h : List.Forall₂ (fun l a => Allocates l.text a) ls as)
    (hlabels : ∀ x ∈ dataLabels base as, labels.address? x.1 = some x.2) :
    List.Forall₂ (Reserves labels) ls (blocksFrom base as) := by
  induction h generalizing base with
  | nil => exact .nil
  | @cons l a ls as hl _ ih =>
    rw [dataLabels_cons] at hlabels
    obtain ⟨hfirst, hrest⟩ := List.forall_mem_cons.mp hlabels
    exact .cons ⟨a, hl, hfirst, rfl⟩ (ih hrest)

/-! ## The order of the labels -/

/-- Labels in the order of their addresses. -/
def LabelTable.Sorted (table : LabelTable) : Prop :=
  table.Pairwise fun x y => x.2 ≤ y.2

theorem le_of_mem_codeLabels {code : List Line} {x : Text × Nat} (h : x ∈ codeLabels code) :
    x.2 ≤ code.countP Line.isInstruction := by
  induction code using List.reverseRecOn with
  | nil => cases h
  | append_singleton code l ih =>
    rw [codeLabels_concat] at h
    rw [List.countP_append]
    rcases List.mem_append.mp h with h | h
    · exact Nat.le_add_right_of_le (ih h)
    · obtain ⟨name, -, rfl⟩ := Option.map_eq_some_iff.mp (Option.mem_toList.mp h)
      exact Nat.le_add_right _ _

theorem sorted_codeLabels (code : List Line) : (codeLabels code).Sorted := by
  induction code using List.reverseRecOn with
  | nil => exact .nil
  | append_singleton code l ih =>
    rw [codeLabels_concat]
    refine List.pairwise_append.mpr ⟨ih, ?_, fun x hx y hy => ?_⟩
    · cases l.label? <;> simp
    · obtain ⟨name, -, rfl⟩ := Option.map_eq_some_iff.mp (Option.mem_toList.mp hy)
      exact le_of_mem_codeLabels hx

theorem le_of_mem_dataLabels {base : Nat} {as : List Allocation} {x : Text × Nat}
    (h : x ∈ dataLabels base as) : base ≤ x.2 := by
  induction as generalizing base with
  | nil => cases h
  | cons a as ih =>
    rw [dataLabels_cons] at h
    rcases List.mem_cons.mp h with rfl | h
    · exact Nat.le_refl _
    · exact Nat.le_of_add_right_le (ih h)

theorem sorted_dataLabels (base : Nat) (as : List Allocation) : (dataLabels base as).Sorted := by
  induction as generalizing base with
  | nil => exact .nil
  | cons a as ih =>
    rw [dataLabels_cons]
    refine List.pairwise_cons.mpr ⟨fun x hx => ?_, ih (base + a.count)⟩
    exact Nat.le_of_add_right_le (le_of_mem_dataLabels hx)

theorem length_instructions (s : Sections) :
    s.instructions.length = s.code.countP Line.isInstruction := by
  rw [Sections.instructions, List.countP_eq_length_filter]

/-- No label of the code stands after one of the data. -/
theorem sorted_labels (s : Sections) (as : List Allocation) : (s.labels as).Sorted := by
  refine List.pairwise_append.mpr ⟨sorted_codeLabels _, sorted_dataLabels _ _, fun x hx y hy => ?_⟩
  calc x.2 ≤ s.code.countP Line.isInstruction := le_of_mem_codeLabels hx
    _ = s.instructions.length := (length_instructions s).symm
    _ ≤ y.2 := le_of_mem_dataLabels hy

/-- **The labels that assembling leaves** are in order and have different names, whichever pass it
comes to an end in. -/
theorem sorted_ofSections (s : Sections) :
    (ofSections s).labels.Sorted ∧ (ofSections s).labels.names.Nodup := by
  rcases ofSections_cases s with ⟨e, labels, hfirst, hs⟩ | ⟨as, has, hs⟩
  · rw [hs]
    cases hfirst with
    | label _ hbefore =>
      refine ⟨sorted_codeLabels _, ?_⟩
      rw [names_codeLabels]
      exact hbefore
    | data _ hbefore => exact ⟨sorted_labels s _, hbefore.nodup_names⟩
    | instruction hdata => exact ⟨sorted_labels s _, hdata.nodup_names⟩
  · rw [hs]
    exact ⟨sorted_labels s as, has.nodup_names⟩

/-! ## The room that is left -/

section Lays
variable {s : Sections} {as : List Allocation}

/-- All that is set aside fits after the code, if anything is. -/
theorem Sections.Lays.stop_le (h : s.Lays s.data as) (hdata : s.data ≠ []) :
    s.instructions.length + totalCount as ≤ memorySize := by
  have hlength : s.data.length = as.length := h.allocates.length_eq
  have hpos : 0 < as.length := hlength ▸ List.length_pos_iff.mpr hdata
  have hfits := h.fits (as.length - 1) (by omega)
  rwa [Nat.sub_add_cancel hpos, List.take_length] at hfits

theorem Sections.Lays.address?_code (h : s.Lays s.data as) {l : Line} {name : Text}
    (hl : l ∈ s.code) (hname : l.label? = some name) :
    ∃ address ≤ s.instructions.length, (s.labels as).address? name = some address := by
  have hmem : name ∈ (codeLabels s.code).names := by
    rw [names_codeLabels]
    exact List.mem_filterMap.mpr ⟨l, hl, hname⟩
  obtain ⟨⟨_, address⟩, hx, rfl⟩ := List.mem_map.mp hmem
  refine ⟨address, ?_, ?_⟩
  · rw [length_instructions]
    exact le_of_mem_codeLabels hx
  · exact (LabelTable.address?_eq_some_iff h.nodup_names).mpr (List.mem_append_left _ hx)

theorem Sections.Lays.reserves (h : s.Lays s.data as) :
    List.Forall₂ (Reserves (s.labels as)) s.data (blocksFrom s.instructions.length as) := by
  refine reserves_blocksFrom h.allocates fun x hx => ?_
  exact (LabelTable.address?_eq_some_iff h.nodup_names).mpr (List.mem_append_right _ hx)

/-- A block that is set aside lies between the end of the code and the end of memory. -/
theorem Sections.Lays.bounds_of_mem (h : s.Lays s.data as) {b : Block}
    (hb : b ∈ blocksFrom s.instructions.length as) :
    s.instructions.length ≤ b.first ∧ b.stop ≤ memorySize := by
  obtain ⟨hfirst, hstop⟩ := (consecutive_blocksFrom _ as).bounds b hb
  -- a block comes from a data line, so all that is set aside has been found to fit
  have hdata : s.data ≠ [] := by
    intro hnil
    have hblocks := h.reserves
    rw [hnil, List.forall₂_nil_left_iff] at hblocks
    rw [hblocks] at hb
    cases hb
  exact ⟨hfirst, hstop.trans (h.stop_le hdata)⟩

end Lays

end Assembly

namespace Machine
variable {m loaded : Machine} {p : Program}

/-- A program can be loaded if it fits. -/
theorem exists_load_iff : (∃ loaded, m.load p = .ok loaded) ↔ p.length ≤ memorySize := by
  constructor
  · rintro ⟨loaded, h⟩
    rw [load] at h
    split at h
    · cases h
    · exact Nat.not_lt.mp ‹_›
  · intro h
    obtain ⟨loaded, hload, -⟩ := load_eq_ok m h
    exact ⟨loaded, hload⟩

/-- Memory is zero after a program that has been loaded. -/
theorem word_eq_zero_of_load (h : m.load p = .ok loaded) {address : Fin memorySize}
    (hle : p.length ≤ address.val) : loaded.word address = 0 := by
  obtain ⟨other, hother, hmemory⟩ := load_eq_ok m (exists_load_iff.mp ⟨loaded, h⟩)
  obtain rfl : other = loaded := Except.ok.inj (hother.symm.trans h)
  rw [word_of_memory hmemory, List.getElem?_eq_none hle, Option.getD_none]

end Machine

/-! ## Sources -/

namespace Assembler
open Assembly

/-- **How code and data share memory**, whatever has been assembled before.  The labels that are
known afterwards are in the order of their addresses and have different names, even if the source is
refused.  If it is accepted, the labels of its code stand within the program or at its end, and the
blocks that its data lines reserve follow one another from the end of the program on: so no two of
them overlap, none overlaps the program, and they end within memory.  A program fits if there are
data lines at all, it can be loaded just when it fits, and then its blocks are zero. -/
theorem assemble_lays_out (a : Assembler) (source : List Text) :
    let s := Sections.ofSource source
    let labels := (a.assemble source).2.labels
    labels.Sorted ∧ labels.names.Nodup ∧ ∀ p, (a.assemble source).1 = .ok p →
      (∀ l ∈ s.code, ∀ name, l.label? = some name →
        ∃ address ≤ p.length, labels.address? name = some address) ∧
      (∃ blocks stop, List.Forall₂ (Reserves labels) s.data blocks ∧
        Consecutive p.length blocks stop ∧
        (blocks.Pairwise fun b c => List.Disjoint b.addresses c.addresses) ∧
        ∀ b ∈ blocks, List.Disjoint b.addresses (List.range p.length) ∧ b.stop ≤ memorySize ∧
          ∀ m loaded, Machine.load m p = .ok loaded → ∀ address : Fin memorySize,
            address.val ∈ b.addresses → loaded.word address = 0) ∧
      (s.data ≠ [] → p.length ≤ memorySize) ∧
      ∀ m, (∃ loaded, Machine.load m p = .ok loaded) ↔ p.length ≤ memorySize := by
  intro s labels
  obtain ⟨hsorted, hnodup⟩ := sorted_ofSections s
  refine ⟨hsorted, hnodup, fun p hp => ?_⟩
  obtain ⟨as, has, hlabels, hwords⟩ := ofSections_eq_ok_iff.mp (assemble_eq_iff.mpr ⟨hp, rfl⟩)
  have hlength : s.instructions.length = p.length := hwords.length_eq
  have hconsecutive := consecutive_blocksFrom s.instructions.length as
  rw [show labels = s.labels as from hlabels, ← hlength]
  refine ⟨fun l hl name hname => has.address?_code hl hname,
    ⟨_, _, has.reserves, hconsecutive, hconsecutive.pairwise_disjoint, fun b hb => ?_⟩,
    fun hdata => Nat.le_of_add_right_le (has.stop_le hdata), ?_⟩
  · obtain ⟨hfirst, hstop⟩ := has.bounds_of_mem hb
    have hafter : ∀ address ∈ b.addresses, s.instructions.length ≤ address :=
      fun address haddress => hfirst.trans (Block.mem_addresses_iff.mp haddress).1
    refine ⟨fun address haddress hcode => ?_, hstop, ?_⟩
    · have hlt := List.mem_range.mp hcode
      have hle := hafter address haddress
      omega
    · intro m loaded hload address haddress
      exact Machine.word_eq_zero_of_load hload (hlength ▸ hafter address.val haddress)
  · intro m
    rw [hlength]
    exact Machine.exists_load_iff

/-- An empty block shares its address with the block after it, and one at the end of memory has none
of its own; the labels of a source that asks for too much stop at the line before. -/
theorem assemble_lays_out_to_the_end :
    let source :=
      ["start:", "ldc R0 @all", "hlt", "end:", ".data", "none: 0", "all: 254", "last: 0"].map
        String.toList
    let refused := source ++ ["more: 1".toList]
    let p : Program := [0x020002, 0x000001]
    let a : Assembler := {}
    (a.assemble source).1 = .ok p ∧
      (∃ blocks stop, Consecutive 2 blocks stop ∧ List.Forall₂
        (Reserves (a.assemble source).2.labels) (Sections.ofSource source).data blocks) ∧
      (∃ loaded, Machine.blank.load p = .ok loaded) ∧
      (a.assemble refused).2.labels.Sorted := by
  intro source refused p a
  have hp : (a.assemble source).1 = .ok p := by decide
  obtain ⟨-, -, hok⟩ := assemble_lays_out a source
  obtain ⟨-, ⟨blocks, stop, hreserves, hconsecutive, -⟩, hfits, hload⟩ := hok p hp
  exact ⟨hp, ⟨blocks, stop, hconsecutive, hreserves⟩, (hload _).mpr (hfits (by decide)),
    (assemble_lays_out a refused).1⟩

end Assembler
end RegisterMachine
