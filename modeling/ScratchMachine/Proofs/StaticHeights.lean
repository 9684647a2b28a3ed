import ScratchMachine.Proofs.Checking
import ScratchMachine.Proofs.Heights
import ScratchMachine.Proofs.Precedence
import ScratchMachine.Proofs.Scanning

/-!
# The height of the scan over a lowered tree

When the static check has scanned some blocks, its height is what these have left on the stack less what they have
taken and paid as tolls, whatever their order.  All that leads to a block is placed before it.  This alone bounds the
height of the scan from below, within the blocks of every part of a tree: it never falls under zero, and it is at least
the number of values of the part once the end of the part has been scanned.

* `BlockGraph.Front`: which blocks can have been scanned.
* `Fragment.Carries`: the lower bound for a fragment, with one lemma for each way of linking.
-/

namespace ScratchMachine

open BlockGraph Fallible

namespace BlockGraph

/-! ### Heights -/

/-- What is counted of some blocks, those with numbers from `lo` to below `hi`. -/
def tally (count : BlockId → Int) (ids : List BlockId) (lo hi : Nat) : Int :=
  ∑ i ∈ Finset.Ico lo hi, if ⟨i⟩ ∈ ids then count ⟨i⟩ else 0

/-- What it takes to leave a block. -/
def toll (g : BlockGraph) (id : BlockId) : Int :=
  match g.block? id with
  | some b => b.exit.toll
  | none => 0

/-- What the operations of a block take. -/
def taken (g : BlockGraph) (id : BlockId) : Int :=
  match g.block? id with
  | some b => Operation.takenBy b.ops
  | none => 0

/-- What the operations of a block leave. -/
def left (g : BlockGraph) (id : BlockId) : Int :=
  match g.block? id with
  | some b => Operation.leftBy b.ops
  | none => 0

/-- What blocks with numbers from `lo` to below `hi` add to the height of the scan, when the operations of those that
have begun have been taken off the stack, and those that have ended have been left again. -/
def height (g : BlockGraph) (begun ended : List BlockId) (lo hi : Nat) : Int :=
  tally (fun id => g.left id - g.toll id) ended lo hi - tally g.taken begun lo hi

variable {g : BlockGraph} {begun ended : List BlockId} {lo mid hi : Nat} {id target : BlockId} {b : Block}

theorem tally_append (count : BlockId → Int) (ids : List BlockId) (hlo : lo ≤ mid) (hhi : mid ≤ hi) :
    tally count ids lo mid + tally count ids mid hi = tally count ids lo hi :=
  Finset.sum_Ico_consecutive _ hlo hhi

theorem tally_single (count : BlockId → Int) (ids : List BlockId) (id : BlockId) :
    tally count ids id.index (id.index + 1) = if id ∈ ids then count id else 0 := by
  rw [tally, Finset.sum_Ico_succ_top (le_refl _), Finset.Ico_self, Finset.sum_empty, zero_add]

theorem tally_nil (count : BlockId → Int) : tally count [] lo hi = 0 := by simp [tally]

theorem tally_concat (count : BlockId → Int) {ids : List BlockId} (hid : id ∉ ids) (hlo : lo ≤ id.index)
    (hhi : id.index < hi) : tally count (ids ++ [id]) lo hi = tally count ids lo hi + count id := by
  have hsplit : ∀ i, (if (⟨i⟩ : BlockId) ∈ ids ++ [id] then count ⟨i⟩ else 0) =
      (if (⟨i⟩ : BlockId) ∈ ids then count ⟨i⟩ else 0) + if id.index = i then count id else 0 := by
    intro i
    by_cases hi : id.index = i
    · subst hi
      simp [hid]
    · have hne : (⟨i⟩ : BlockId) ≠ id := fun heq => hi (by rw [← heq])
      simp [hne, hi]
  simp only [tally, hsplit, Finset.sum_add_distrib, Finset.sum_ite_eq, Finset.mem_Ico, hlo, hhi, and_self, if_true]

theorem height_append (begun ended : List BlockId) (hlo : lo ≤ mid) (hhi : mid ≤ hi) :
    g.height begun ended lo mid + g.height begun ended mid hi = g.height begun ended lo hi := by
  have hended := tally_append (fun id => g.left id - g.toll id) ended hlo hhi
  have hbegun := tally_append g.taken begun hlo hhi
  unfold height
  omega

theorem height_single (hb : g.block? id = some b) :
    g.height begun ended id.index (id.index + 1) =
      (if id ∈ ended then (Operation.leftBy b.ops : Int) - b.exit.toll else 0) -
        if id ∈ begun then (Operation.takenBy b.ops : Int) else 0 := by
  rw [height, tally_single, tally_single, left, toll, taken, hb]

/-! ### Fronts -/

/-- Some blocks have begun and some of them have ended.  Whatever control can come from to a block that has begun has
ended, and a block that has ended has no calls. -/
structure Front (g : BlockGraph) (entry : BlockId) (begun ended : List BlockId) : Prop where
  subset : ended ⊆ begun
  noCalls : ∀ id ∈ ended, ∀ b, g.block? id = some b → Operation.NoCalls b.ops
  closed : ∀ id target, g.Reaches entry id → g.Edge id target → target ∈ begun → id ∈ ended

variable {entry : BlockId}

theorem Front.begun_of_reaches (h : g.Front entry begun ended) (hid : g.Reaches entry id)
    (hreach : g.Reaches id target) (htarget : target ∈ begun) : id ∈ begun := by
  induction hreach using Relation.ReflTransGen.head_induction_on with
  | refl => exact htarget
  | head hedge _ ih => exact h.subset (h.closed _ _ hid hedge (ih (hid.tail hedge)))

/-- What is still due at the end of a fragment that is to leave `n` values: these, less the toll there. -/
def due (g : BlockGraph) (ended : List BlockId) (exit : Option BlockId) (n : Nat) : Int :=
  match exit with
  | some x => if x ∈ ended then n - g.toll x else 0
  | none => 0

theorem due_mono {exit : Option BlockId} {m n : Nat} (hle : m ≤ n) : g.due ended exit m ≤ g.due ended exit n := by
  unfold due
  split
  · split <;> omega
  · exact le_refl _

/-- A block of which the operations find what they take, above a height that does not fall under zero. -/
theorem due_le_block (hfront : g.Front entry begun ended) (hb : g.block? id = some b) {exit : Option BlockId}
    (hexit : exit = some id ∨ exit = none ∧ b.exit.toll = 0) {m n : Nat} {below : Int} (hbelow : 0 ≤ below)
    (hbegun : id ∈ begun → n ≤ below) (htaken : Operation.takenBy b.ops ≤ n)
    (hm : Operation.NoCalls b.ops → m + Operation.takenBy b.ops ≤ n + Operation.leftBy b.ops) :
    g.due ended exit m ≤ below + g.height begun ended id.index (id.index + 1) := by
  rw [height_single hb]
  by_cases hended : id ∈ ended
  · have hid := hfront.subset hended
    have hn := hbegun hid
    have hm := hm (hfront.noCalls id hended b hb)
    rw [if_pos hended, if_pos hid]
    rcases hexit with rfl | ⟨rfl, htoll⟩
    · rw [due, if_pos hended, toll, hb]
      dsimp only
      omega
    · rw [due, htoll]
      omega
  · have hdue : g.due ended exit m = 0 := by
      rcases hexit with rfl | ⟨rfl, -⟩
      · rw [due, if_neg hended]
      · rfl
    rw [hdue, if_neg hended]
    split
    · rename_i hid
      have hn := hbegun hid
      omega
    · omega

end BlockGraph

/-! ### Fragments -/

/-- How many values expressions leave in all, as their types say. -/
def Expr.sizes : List Expr → Nat
  | [] => 0
  | e :: es => e.type.size + sizes es

namespace Fragment

/-- The fragment lies in the blocks with numbers from `lo` to below `hi`, and whatever part of it has been scanned, these
blocks have added to the height at least what is due at its end, if that is to leave `n` values. -/
structure Carries (g : BlockGraph) (lo hi : Nat) (f : Fragment) (n : Nat) : Prop where
  le : lo ≤ hi
  due_le : ∀ entry begun ended, g.Front entry begun ended → g.Reaches entry f.entry →
    g.due ended f.exit n ≤ g.height begun ended lo hi

variable {g : BlockGraph} {lo mid hi m n : Nat} {f f' : Fragment} {entry target join : BlockId}
  {begun ended : List BlockId}

theorem Carries.mono (h : f.Carries g lo hi n) (hle : m ≤ n) : f.Carries g lo hi m :=
  ⟨h.le, fun entry begun ended hfront hreach => (due_mono hle).trans (h.due_le entry begun ended hfront hreach)⟩

/-- A block by itself, of which the operations take nothing. -/
theorem carries_block {id : BlockId} {b : Block} (hb : g.block? id = some b) {exit : Option BlockId}
    (hexit : exit = some id ∨ exit = none ∧ b.exit.toll = 0) (htaken : Operation.takenBy b.ops = 0)
    (hn : Operation.NoCalls b.ops → n ≤ Operation.leftBy b.ops) :
    Carries g id.index (id.index + 1) ⟨id, exit⟩ n := by
  refine ⟨Nat.le_succ _, fun entry begun ended hfront _ => ?_⟩
  have hdue := due_le_block (n := 0) hfront hb hexit (le_refl 0) (fun _ => le_refl _) htaken.le (m := n)
    fun hcalls => by have := hn hcalls; omega
  rwa [zero_add] at hdue

/-- The same for a block that is known by its operations, and is its own end. -/
theorem carries_holds {ops : List Operation} (hholds : g.Holds ⟨lo⟩ ops false) (htaken : Operation.takenBy ops = 0)
    (hn : n ≤ Operation.leftBy ops) : Carries g lo (lo + 1) ⟨⟨lo⟩, some ⟨lo⟩⟩ n := by
  obtain ⟨b, hb, rfl, -⟩ := hholds
  exact carries_block hb (.inl rfl) htaken fun _ => hn

/-! ### Links -/

/-- Control goes on at the block that the end of the fragment is linked to, and when that has begun, all values of the
fragment are there. -/
theorem Carries.linked (h : f.Carries g lo hi n) (hspans : f.Spans g lo hi) (hlinked : g.Linked f.exit target)
    (hfront : g.Front entry begun ended) (hreach : g.Reaches entry f.entry) :
    g.Reaches entry target ∧ 0 ≤ g.height begun ended lo hi ∧ (target ∈ begun → n ≤ g.height begun ended lo hi) := by
  have hdue := h.due_le entry begun ended hfront hreach
  obtain ⟨x, hx, -, b, hb, hexit⟩ := hlinked
  have hedge : g.Edge x target := (mem_successors_iff hb).2 (by rw [hexit]; exact List.mem_singleton.2 rfl)
  have hreachx := hreach.trans (hspans.onward x hx).2.1
  have htoll : g.toll x = 0 := by
    rw [toll, hb]
    dsimp only
    rw [hexit]
    rfl
  rw [hx, due, htoll] at hdue
  refine ⟨hreachx.tail hedge, ?_, fun htarget => ?_⟩
  · split at hdue <;> omega
  · rw [if_pos (hfront.closed x target hreachx hedge htarget)] at hdue
    omega

/-- The same where fragments meet, if the fragment has an end. -/
theorem Carries.joined (h : f.Carries g lo hi n) (hspans : f.Spans g lo hi)
    (hjoin : ∀ x, f.exit = some x → g.Linked f.exit join) (hfront : g.Front entry begun ended)
    (hreach : g.Reaches entry f.entry) :
    0 ≤ g.height begun ended lo hi ∧ (f.exit ≠ none → join ∈ begun → n ≤ g.height begun ended lo hi) := by
  cases hexit : f.exit with
  | some x =>
    obtain ⟨-, hzero, hn⟩ := h.linked hspans (hjoin x hexit) hfront hreach
    exact ⟨hzero, fun _ => hn⟩
  | none =>
    have hdue := h.due_le entry begun ended hfront hreach
    rw [hexit, due] at hdue
    exact ⟨hdue, fun hne => absurd rfl hne⟩

/-- A condition that branches has paid the toll with its value. -/
theorem Carries.branched (h : f.Carries g lo hi 1) (hspans : f.Spans g lo hi) {x first second : BlockId}
    (hx : f.exit = some x) (hclosed : g.Closed x (.branch first second []))
    (hfront : g.Front entry begun ended) (hreach : g.Reaches entry f.entry) :
    (g.Reaches entry first ∧ g.Reaches entry second) ∧ 0 ≤ g.height begun ended lo hi := by
  have hdue := h.due_le entry begun ended hfront hreach
  obtain ⟨⟨hfirst, hsecond⟩, -⟩ := hspans.branched hx hclosed
  obtain ⟨-, b, hb, hexit⟩ := hclosed
  have htoll : g.toll x = 1 := by
    rw [toll, hb]
    dsimp only
    rw [hexit]
    rfl
  rw [hx, due, htoll] at hdue
  refine ⟨⟨hreach.trans hfirst, hreach.trans hsecond⟩, ?_⟩
  split at hdue <;> omega

/-! ### Ways of linking -/

/-- One fragment, then another: the values add up. -/
theorem Carries.seq (h : f.Carries g lo mid m) (hspans : f.Spans g lo mid) (hlinked : g.Linked f.exit f'.entry)
    (h' : f'.Carries g mid hi n) (hspans' : f'.Spans g mid hi) : Carries g lo hi ⟨f.entry, f'.exit⟩ (m + n) := by
  refine ⟨h.le.trans h'.le, fun entry begun ended hfront hreach => ?_⟩
  obtain ⟨hreach', hzero, hm⟩ := h.linked hspans hlinked hfront hreach
  have hdue := h'.due_le entry begun ended hfront hreach'
  rw [← height_append begun ended h.le h'.le]
  dsimp only
  cases hexit : f'.exit with
  | none =>
    rw [hexit, due] at hdue
    rw [due]
    omega
  | some x =>
    rw [hexit, due] at hdue
    rw [due]
    split
    · -- the second fragment has come to its end, so it has been entered, and the first is complete
      rename_i hx
      rw [if_pos hx] at hdue
      have hm := hm (hfront.begun_of_reaches hreach' (hspans'.onward x hexit).2.1 (hfront.subset hx))
      omega
    · rename_i hx
      rw [if_neg hx] at hdue
      omega

/-- A fragment, and then a block that takes its values. -/
theorem Carries.taken (h : f.Carries g lo mid n) (hspans : f.Spans g lo mid) {b : Block}
    (hlinked : g.Linked f.exit ⟨mid⟩) (hb : g.block? ⟨mid⟩ = some b) {exit : Option BlockId}
    (hexit : exit = some ⟨mid⟩ ∨ exit = none ∧ b.exit.toll = 0) (htaken : Operation.takenBy b.ops ≤ n)
    (hm : Operation.NoCalls b.ops → m + Operation.takenBy b.ops ≤ n + Operation.leftBy b.ops) :
    Carries g lo (mid + 1) ⟨f.entry, exit⟩ m := by
  refine ⟨Nat.le_succ_of_le h.le, fun entry begun ended hfront hreach => ?_⟩
  obtain ⟨-, hzero, hn⟩ := h.linked hspans hlinked hfront hreach
  rw [← height_append begun ended h.le (Nat.le_succ mid)]
  exact due_le_block hfront hb hexit hzero hn htaken hm

theorem Carries.ifThen {cond body : Fragment} (hcond : cond.Carries g lo mid 1) (hspans : cond.Spans g lo mid)
    (hbody : body.Carries g mid hi n) (hspans' : body.Spans g mid hi) {x : BlockId} (hx : cond.exit = some x)
    (hbranch : g.Closed x (.branch body.entry ⟨hi⟩ []))
    (hjoined : ∀ y, body.exit = some y → g.Linked body.exit ⟨hi⟩) (hjoin : g.Holds ⟨hi⟩ [] false) :
    Carries g lo (hi + 1) ⟨cond.entry, some ⟨hi⟩⟩ 0 := by
  refine ⟨(hcond.le.trans hbody.le).trans (Nat.le_succ hi), fun entry begun ended hfront hreach => ?_⟩
  obtain ⟨⟨hreachbody, -⟩, hzero⟩ := hcond.branched hspans hx hbranch hfront hreach
  obtain ⟨hzero', -⟩ := hbody.joined hspans' hjoined hfront hreachbody
  obtain ⟨b, hb, hops, -⟩ := hjoin
  rw [← height_append begun ended (hcond.le.trans hbody.le) (Nat.le_succ hi),
    ← height_append begun ended hcond.le hbody.le]
  refine due_le_block (n := 0) hfront hb (.inl rfl) (by omega) (fun _ => by omega) ?_ fun _ => ?_
  · simp [hops, Operation.takenBy]
  · simp [hops, Operation.takenBy]

theorem Carries.ifElse {cond yes no : Fragment} {mid' k k' : Nat} (hcond : cond.Carries g lo mid 1)
    (hspans : cond.Spans g lo mid) (hyes : yes.Carries g mid mid' k) (hspansyes : yes.Spans g mid mid')
    (hno : no.Carries g (mid' + 1) hi k') (hspansno : no.Spans g (mid' + 1) hi) {x : BlockId}
    (hx : cond.exit = some x) (hbranch : g.Closed x (.branch yes.entry no.entry []))
    (hyes' : ∀ y, yes.exit = some y → g.Linked yes.exit ⟨mid'⟩)
    (hno' : ∀ y, no.exit = some y → g.Linked no.exit ⟨mid'⟩) (hjoin : g.Holds ⟨mid'⟩ [] false)
    {exit : Option BlockId}
    (hexit : exit = some ⟨mid'⟩ ∧ (n = 0 ∨ yes.exit ≠ none ∧ n ≤ k ∨ no.exit ≠ none ∧ n ≤ k') ∨
      exit = none ∧ g.IsOpen ⟨mid'⟩) :
    Carries g lo hi ⟨cond.entry, exit⟩ n := by
  refine ⟨(hcond.le.trans hyes.le).trans ((Nat.le_succ mid').trans hno.le),
    fun entry begun ended hfront hreach => ?_⟩
  obtain ⟨⟨hreachyes, hreachno⟩, hzero⟩ := hcond.branched hspans hx hbranch hfront hreach
  obtain ⟨hzeroyes, hk⟩ := hyes.joined hspansyes hyes' hfront hreachyes
  obtain ⟨hzerono, hk'⟩ := hno.joined hspansno hno' hfront hreachno
  obtain ⟨b, hb, hops, -⟩ := hjoin
  have hheight : g.height begun ended lo hi =
      g.height begun ended lo mid + g.height begun ended mid mid' + g.height begun ended (mid' + 1) hi +
        g.height begun ended mid' (mid' + 1) := by
    rw [← height_append begun ended (hcond.le.trans hyes.le) ((Nat.le_succ mid').trans hno.le),
      ← height_append begun ended hcond.le hyes.le, ← height_append begun ended (Nat.le_succ mid') hno.le]
    dsimp only [Nat.succ_eq_add_one]
    omega
  have htaken : Operation.takenBy b.ops = 0 := by simp [hops, Operation.takenBy]
  rw [hheight]
  rcases hexit with ⟨rfl, hn⟩ | ⟨rfl, b', hb', hopen⟩
  · -- the block where the arms meet has begun only if those arms that have an end are complete
    refine due_le_block (n := n) hfront hb (.inl rfl) (by omega) (fun hbegun => ?_) (by omega) (by omega)
    rcases hn with rfl | ⟨hne, hle⟩ | ⟨hne, hle⟩
    · omega
    · have := hk hne hbegun
      omega
    · have := hk' hne hbegun
      omega
  · obtain rfl := Option.some.inj (hb.symm.trans hb')
    exact due_le_block (m := 0) (n := 0) hfront hb (.inr ⟨rfl, by rw [hopen]; rfl⟩) (by omega) (fun _ => by omega)
      (by omega) (by omega)

/-! ### Operation nodes -/

/-- Fragments that lie one after another in the blocks with numbers from `lo` to below `hi`, and carry what the types of
expressions say. -/
inductive CarryAll (g : BlockGraph) : Nat → List Fragment → List Expr → Nat → Prop
  | nil (lo : Nat) : CarryAll g lo [] [] lo
  | cons {lo mid hi : Nat} {f : Fragment} {fs : List Fragment} {e : Expr} {es : List Expr} :
      f.Carries g lo mid e.type.size → f.Spans g lo mid → CarryAll g mid fs es hi → CarryAll g lo (f :: fs) (e :: es) hi

theorem carries_of_chained {first : Fragment} {rest : List Fragment} {es : List Expr} {last : Option BlockId}
    (hfirst : first.Carries g lo mid n) (hspans : first.Spans g lo mid) (hchained : g.Chained first.exit rest last)
    (hrest : CarryAll g mid rest es hi) :
    Carries g lo hi ⟨first.entry, last⟩ (n + Expr.sizes es) ∧ Spans g lo hi ⟨first.entry, last⟩ := by
  induction hrest generalizing first n with
  | nil =>
    obtain rfl : last = first.exit := hchained
    exact ⟨hfirst, hspans⟩
  | @cons mid mid' hi next rest e es hnext hspansnext hrest ih =>
    obtain ⟨hlinked, hchained⟩ := hchained
    have hseq := hfirst.seq hspans hlinked hnext hspansnext
    have hspansseq := (hspans.mono (le_refl _) hnext.le).seq hlinked (hspansnext.mono hfirst.le (le_refl _))
    have hall := ih hseq hspansseq hchained
    rwa [Nat.add_assoc] at hall

/-- The node of an operation that takes no more than its operands leave. -/
theorem CarryAll.applied {fs : List Fragment} {es : List Expr} {op : Operation} (h : CarryAll g lo fs es hi)
    (happlied : g.Applied op fs f ⟨hi⟩) (htaken : Operation.takenBy [op] ≤ Expr.sizes es)
    (hn : Operation.NoCalls [op] → n + Operation.takenBy [op] ≤ Expr.sizes es + Operation.leftBy [op]) :
    f.Carries g lo (hi + 1) n := by
  obtain ⟨b, hb, hops, hterminal⟩ := happlied.holds
  have hexit : f.exit = some ⟨hi⟩ ∨ f.exit = none ∧ b.exit.toll = 0 := by
    rw [happlied.exit]
    split
    · rename_i hop
      exact .inr ⟨rfl, by rw [hterminal hop]; rfl⟩
    · exact .inl rfl
  rw [← hops] at htaken hn
  cases h with
  | nil =>
    have hentry : f.entry = ⟨lo⟩ := happlied.leads
    have hblock : Carries g lo (lo + 1) ⟨⟨lo⟩, f.exit⟩ n := by
      refine carries_block hb hexit (Nat.le_zero.1 htaken) fun hcalls => ?_
      have hn := hn hcalls
      rw [Expr.sizes] at hn
      omega
    rwa [← hentry] at hblock
  | cons hfirst hspans hrest =>
    obtain ⟨hentry, last, hchained, hlinked⟩ := happlied.leads
    obtain ⟨hcarries, hspans⟩ := carries_of_chained hfirst hspans hchained hrest
    have htaken := hcarries.taken hspans hlinked hb hexit htaken hn
    rwa [← hentry] at htaken

end Fragment

end ScratchMachine
