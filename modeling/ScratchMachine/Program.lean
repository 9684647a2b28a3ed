import ScratchMachine.Operation

/-!
# Assembled programs

A program is a list of code objects, of which the first is the main one, and a table that says which code object
each subroutine runs.  The table is kept in ascending order of the subroutines, so two tables with the same entries
are equal.

* `SubroutineTable.find?_insert`: what an insertion does to every look-up.
-/

namespace ScratchMachine

/-- A named run of operations. -/
structure CodeObject where
  name : String
  ops : Array Operation := #[]
  deriving DecidableEq, Repr, Inhabited

/-- Which code object each subroutine runs. -/
structure SubroutineTable where
  entries : List (SubroutineId × UInt64) := []
  sorted : entries.Pairwise (·.1.number < ·.1.number) := by exact List.Pairwise.nil
  deriving DecidableEq

namespace SubroutineTable

instance : Inhabited SubroutineTable := ⟨{}⟩

/-- The entry of a subroutine. -/
def find? (t : SubroutineTable) (id : SubroutineId) : Option UInt64 := t.entries.lookup id

/-! ### Insertion -/

/-- Puts an entry at its place in an ascending list, or in place of an entry with the same key. -/
def insertEntry (id : SubroutineId) (index : UInt64) :
    List (SubroutineId × UInt64) → List (SubroutineId × UInt64)
  | [] => [(id, index)]
  | e :: rest =>
    if id.number < e.1.number then (id, index) :: e :: rest
    else if id = e.1 then (id, index) :: rest
    else e :: insertEntry id index rest

private theorem mem_insertEntry {id : SubroutineId} {index : UInt64} {l : List (SubroutineId × UInt64)}
    {e : SubroutineId × UInt64} (h : e ∈ insertEntry id index l) : e = (id, index) ∨ e ∈ l := by
  induction l with
  | nil => simpa [insertEntry] using h
  | cons a rest ih =>
    unfold insertEntry at h
    split at h
    · simpa using h
    · split at h
      · rcases List.mem_cons.1 h with rfl | h
        · exact .inl rfl
        · exact .inr (List.mem_cons_of_mem _ h)
      · rcases List.mem_cons.1 h with rfl | h
        · exact .inr (List.mem_cons_self ..)
        · exact (ih h).imp_right (List.mem_cons_of_mem _)

private theorem number_lt_of_not_lt {a b : SubroutineId} (h : ¬ a.number < b.number) (hne : a ≠ b) :
    b.number < a.number := by
  rcases a with ⟨a⟩
  rcases b with ⟨b⟩
  have hn : a.toNat ≠ b.toNat := fun he => hne (by rw [UInt32.toNat_inj.1 he])
  simp only [UInt32.lt_iff_toNat_lt] at h ⊢
  omega

private theorem pairwise_insertEntry {id : SubroutineId} {index : UInt64} {l : List (SubroutineId × UInt64)}
    (h : l.Pairwise (·.1.number < ·.1.number)) :
    (insertEntry id index l).Pairwise (·.1.number < ·.1.number) := by
  induction l with
  | nil => simp [insertEntry]
  | cons a rest ih =>
    obtain ⟨ha, hrest⟩ := List.pairwise_cons.1 h
    unfold insertEntry
    split
    · rename_i hlt
      refine List.pairwise_cons.2 ⟨fun e he => ?_, h⟩
      rcases List.mem_cons.1 he with rfl | he
      · exact hlt
      · exact UInt32.lt_trans hlt (ha e he)
    · split
      · rename_i heq
        exact List.pairwise_cons.2 ⟨fun e he => heq ▸ ha e he, hrest⟩
      · rename_i hlt hne
        refine List.pairwise_cons.2 ⟨fun e he => ?_, ih hrest⟩
        rcases mem_insertEntry he with rfl | he
        · exact number_lt_of_not_lt hlt hne
        · exact ha e he

/-- Sets the entry of a subroutine. -/
def insert (t : SubroutineTable) (id : SubroutineId) (index : UInt64) : SubroutineTable :=
  ⟨insertEntry id index t.entries, pairwise_insertEntry t.sorted⟩

/-- The table of a list of entries, of which a later one wins over an earlier one. -/
def ofList (entries : List (SubroutineId × UInt64)) : SubroutineTable :=
  entries.foldl (fun t e => t.insert e.1 e.2) {}

private theorem lookup_insertEntry (id : SubroutineId) (index : UInt64) (other : SubroutineId)
    (l : List (SubroutineId × UInt64)) :
    (insertEntry id index l).lookup other = if other = id then some index else l.lookup other := by
  induction l with
  | nil => by_cases h : other = id <;> simp [insertEntry, List.lookup_cons, beq_eq_false_iff_ne.2, h]
  | cons a rest ih =>
    obtain ⟨key, old⟩ := a
    simp only [insertEntry]
    split
    · by_cases h : other = id <;> simp [List.lookup_cons, beq_eq_false_iff_ne.2, h]
    · split
      · rename_i heq
        obtain rfl : id = key := heq
        by_cases h : other = id <;> simp [List.lookup_cons, beq_eq_false_iff_ne.2, h]
      · rename_i hne
        by_cases hk : other = key
        · subst hk
          have : ¬ other = id := fun h => hne h.symm
          simp [this]
        · simpa [List.lookup_cons, beq_eq_false_iff_ne.2 hk] using ih

theorem find?_insert (t : SubroutineTable) (id : SubroutineId) (index : UInt64) (other : SubroutineId) :
    (t.insert id index).find? other = if other = id then some index else t.find? other :=
  lookup_insertEntry id index other t.entries

end SubroutineTable

/-- An assembled program.  Its first code object is the main one. -/
structure Program where
  code : List CodeObject
  subroutines : SubroutineTable := {}
  deriving DecidableEq, Inhabited

namespace Program

/-- The code object where a run starts. -/
def main? (p : Program) : Option CodeObject := p.code.head?

/-- The code object that a subroutine runs. -/
def subroutine? (p : Program) (id : SubroutineId) : Option CodeObject := do
  p.code[(← p.subroutines.find? id).toNat]?

end Program

end ScratchMachine
