import Mathlib
import ScratchMachine.Program.Codec

/-!
# Reading back the bytes of a program

Everything that is written for a program says itself where it ends.  So a reader takes it off the front of any bytes,
whatever follows, and of bytes that were cut short it finds out that some are missing, wherever they were cut.

* `Reader.Reads`: a reader and the bytes for one answer belong together in this way; `Reader.Reads.bind` puts two such
  pairs together.
* `Operation.reads`, `CodeObject.reads`, `Program.reads`: the readers of the parts and of the whole do.
* `Program.decode_encode`: a program is read back from its bytes, and from no proper front part of them.
-/

namespace ScratchMachine

namespace Varint

/-! ### Signed numbers -/

theorem fold_lt (n : Int32) : fold n < 2 ^ 32 := by
  have hlow := n.le_toInt
  have hhigh := n.toInt_lt
  unfold Varint.fold
  split
  · rename_i k hk
    have hk : n.toInt = k := hk
    omega
  · rename_i k hk
    omega

theorem unfold_fold (n : Int32) : unfold (fold n) = n := by
  unfold Varint.fold Varint.unfold
  split <;> rename_i k hk
  · rw [if_pos (by omega), Nat.mul_div_cancel_left k (by decide), ← hk, Int32.ofInt_toInt]
  · rw [if_neg (by omega), show (2 * k + 1) / 2 = k by omega, ← hk, Int32.ofInt_toInt]

end Varint

namespace Reader

variable {α β : Type}

/-- The reader takes the bytes written for `a` off the front of any others and leaves those.  If it finds only a front
part of what was written, it says that the bytes end too early. -/
structure Reads (read : Reader α) (written : List UInt8) (a : α) : Prop where
  whole : ∀ rest, read.run (written ++ rest) = .ok (a, rest)
  cut : ∀ front lost, front ++ lost = written → lost ≠ [] → read.run front = .error .endOfBytes

/-! ### Putting readers together -/

theorem reads_pure (a : α) : Reads (pure a) [] a :=
  ⟨fun _ => rfl, fun _ _ h hlost => absurd (List.append_eq_nil_iff.1 h).2 hlost⟩

theorem Reads.bind {read : Reader α} {next : α → Reader β} {written written' : List UInt8} {a : α} {b : β}
    (h : Reads read written a) (h' : Reads (next a) written' b) : Reads (read >>= next) (written ++ written') b := by
  refine ⟨fun rest => ?_, fun front lost hfront hlost => ?_⟩
  · rw [List.append_assoc, StateT.run_bind, h.whole]
    exact h'.whole rest
  · rw [StateT.run_bind]
    -- the cut is in the bytes of the second part, or in those of the first
    by_cases hlong : ∃ front', front = written ++ front'
    · obtain ⟨front', rfl⟩ := hlong
      rw [h.whole]
      rw [List.append_assoc, List.append_cancel_left_eq] at hfront
      exact h'.cut front' lost hfront hlost
    · rcases List.append_eq_append_iff.1 hfront with ⟨missing, hwritten, -⟩ | ⟨front', hfront', -⟩
      · have hmissing : missing ≠ [] := by
          rintro rfl
          exact hlong ⟨[], by rw [hwritten, List.append_nil, List.append_nil]⟩
        rw [h.cut front missing hwritten.symm hmissing]
        rfl
      · exact absurd ⟨front', hfront'⟩ hlong

theorem Reads.map {read : Reader α} {written : List UInt8} {a : α} (h : Reads read written a) (f : α → β) :
    Reads (f <$> read) written (f a) := by
  rw [← bind_pure_comp, ← List.append_nil written]
  exact h.bind (reads_pure (f a))

/-! ### Numbers -/

/-- A number of the expected width. -/
theorem reads_varint {width n : Nat} (h : n < 2 ^ width) : Reads (Varint.read width) (Varint.encode n) n := by
  have hshift : ∀ {w k : Nat}, k < 2 ^ w → k >>> w = 0 := fun hk => by
    rw [Nat.shiftRight_eq_div_pow, Nat.div_eq_of_lt hk]
  refine ⟨fun rest => Varint.read_encode width n (hshift h) rest, ?_⟩
  induction n using Nat.strongRecOn generalizing width with
  | ind n ih =>
    intro front lost hfront hlost
    rw [Varint.encode] at hfront
    cases front with
    | nil => rfl
    | cons b front =>
      by_cases hn : n < 128
      · rw [if_pos hn, List.cons_append, List.cons.injEq] at hfront
        exact absurd (List.append_eq_nil_iff.1 hfront.2).2 hlost
      · rw [if_neg hn, List.cons_append, List.cons.injEq] at hfront
        obtain ⟨rfl, hfront⟩ := hfront
        have hwidth : 7 < width := by
          by_contra hle
          have := Nat.pow_le_pow_right (n := 2) (by decide) (Nat.le_of_not_lt hle)
          omega
        have hbyte : (UInt8.ofNat (n % 128 + 128)).toNat = n % 128 + 128 := by
          rw [UInt8.toNat_ofNat', Nat.mod_eq_of_lt (by omega)]
        have hhigh : n / 128 < 2 ^ (width - 7) := by
          rw [Nat.div_lt_iff_lt_mul (by decide), show (128 : Nat) = 2 ^ 7 from rfl, ← Nat.pow_add,
            Nat.sub_add_cancel (Nat.le_of_lt hwidth)]
          exact h
        have hcut := ih (n / 128) (by omega) hhigh front lost hfront hlost
        rw [StateT.run] at hcut ⊢
        rw [Varint.read, if_neg (by omega), hbyte, if_neg (by omega), hcut]
        rfl

theorem reads_word (n : UInt64) : Reads word (Encoding.word n) n := by
  have hread : Reads (Varint.read 64) (Varint.encode n.toNat) n.toNat := reads_varint n.toNat_lt
  have h := hread.map UInt64.ofNat
  rwa [UInt64.ofNat_toNat] at h

theorem reads_subroutineId (id : SubroutineId) : Reads subroutineId (Encoding.subroutineId id) id := by
  have hread : Reads (Varint.read 32) (Varint.encode id.number.toNat) id.number.toNat := reads_varint id.number.toNat_lt
  have h := hread.map fun n => (⟨UInt32.ofNat n⟩ : SubroutineId)
  rwa [UInt32.ofNat_toNat] at h

theorem reads_offset (n : Int32) : Reads offset (Encoding.offset n) n := by
  have h := (reads_varint (Varint.fold_lt n)).map Varint.unfold
  rwa [Varint.unfold_fold] at h

/-! ### Texts and lists -/

theorem reads_take (b : List UInt8) : Reads (take b.length) b b := by
  refine ⟨fun rest => ?_, fun front lost hfront hlost => ?_⟩
  · rw [StateT.run, take, if_pos (by simp), List.take_left, List.drop_left]
  · have hlength := congrArg List.length hfront
    rw [List.length_append] at hlength
    have hpos := List.length_pos_iff.2 hlost
    rw [StateT.run, take, if_neg (by omega)]

theorem reads_bytes {b : List UInt8} (h : b.length < 2 ^ 64) : Reads bytes (Encoding.bytes b) b :=
  (reads_varint h).bind (reads_take b)

theorem reads_text {s : String} (h : s.utf8ByteSize < 2 ^ 64) : Reads text (Encoding.text s) s := by
  have hvalid : String.fromUTF8? ⟨s.toUTF8.data.toList.toArray⟩ = some s := by
    rw [Array.toArray_toList, String.toUTF8_eq_toByteArray, String.fromUTF8?, dif_pos s.isValidUTF8]
    rfl
  have hread : Reads text (Encoding.bytes s.toUTF8.data.toList ++ []) s := by
    have hlength : s.toUTF8.data.toList.length < 2 ^ 64 := h
    refine (reads_bytes hlength).bind ?_
    rw [hvalid]
    exact reads_pure s
  rwa [List.append_nil] at hread

theorem reads_many {read : Reader α} {encode : α → List UInt8} {l : List α} (h : ∀ a ∈ l, Reads read (encode a) a) :
    Reads (many read l.length) (l.flatMap encode) l := by
  induction l with
  | nil => exact reads_pure []
  | cons a l ih =>
    have hrest := (ih fun b hb => h b (List.mem_cons_of_mem a hb)).map (a :: ·)
    rw [← bind_pure_comp] at hrest
    exact (h a (List.mem_cons_self ..)).bind hrest

theorem reads_list {read : Reader α} {encode : α → List UInt8} {l : List α} (hlength : l.length < 2 ^ 64)
    (h : ∀ a ∈ l, Reads read (encode a) a) : Reads (list read) (Encoding.list encode l) l :=
  (reads_varint hlength).bind (reads_many h)

end Reader

open Reader

/-! ### Operations -/

namespace Operation

/-- The lengths in the operand are words. -/
def LengthsFit : Operation → Prop
  | byte b => b.length < 2 ^ 64
  | switch offsets => offsets.length < 2 ^ 64
  | _ => True

theorem reads_operand {op : Operation} (h : op.LengthsFit) : Reads (readOperand op.tag) op.operandBytes op := by
  cases op with
  | int n => exact (reads_word n).map int
  | byte b => exact (reads_bytes h).map byte
  | load n => exact (reads_word n).map load
  | store n => exact (reads_word n).map store
  | jump o => exact (reads_offset o).map jump
  | jumpIfFalse o => exact (reads_offset o).map jumpIfFalse
  | switch os => exact (reads_list h fun o _ => reads_offset o).map switch
  | callsub id => exact (reads_subroutineId id).map callsub
  | _ => exact reads_pure _

theorem reads {op : Operation} (h : op.LengthsFit) : Reads Operation.read op.encode op := by
  have htag : op.tag < 28 := by cases op <;> simp [tag]
  exact (reads_varint (Nat.lt_trans htag (by decide))).bind (reads_operand h)

end Operation

/-! ### Programs -/

/-- The lengths in the code object are words. -/
structure CodeObject.LengthsFit (c : CodeObject) : Prop where
  name : c.name.utf8ByteSize < 2 ^ 64
  ops : c.ops.size < 2 ^ 64
  operands : ∀ op ∈ c.ops.toList, op.LengthsFit

theorem CodeObject.reads {c : CodeObject} (h : c.LengthsFit) : Reads CodeObject.read c.encode c := by
  have hops := (reads_list (l := c.ops.toList) h.ops fun op hop => Operation.reads (h.operands op hop)).map
    fun ops => (⟨c.name, ops.toArray⟩ : CodeObject)
  rw [← bind_pure_comp] at hops
  exact (reads_text h.name).bind hops

namespace SubroutineTable

theorem reads_entry (e : SubroutineId × UInt64) : Reads readEntry (encodeEntry e) e := by
  have hindex := (reads_word e.2).map fun index => (e.1, index)
  rw [← bind_pure_comp] at hindex
  exact (reads_subroutineId e.1).bind hindex

theorem length_add_le {entries : List (SubroutineId × UInt64)} (h : entries.Pairwise (·.1.number < ·.1.number))
    {low : Nat} (hlow : ∀ e ∈ entries, low ≤ e.1.number.toNat) (hmax : low ≤ 2 ^ 32) :
    low + entries.length ≤ 2 ^ 32 := by
  induction entries generalizing low with
  | nil => exact hmax
  | cons e rest ih =>
    obtain ⟨hfirst, hrest⟩ := List.pairwise_cons.1 h
    have he := hlow e (List.mem_cons_self ..)
    have hlt := e.1.number.toNat_lt
    have hothers : e.1.number.toNat + 1 + rest.length ≤ 2 ^ 32 :=
      ih hrest (fun e' he' => UInt32.lt_iff_toNat_lt.1 (hfirst e' he')) hlt
    rw [List.length_cons]
    omega

/-- There are no more entries than numbers of subroutines. -/
theorem length_entries_le (t : SubroutineTable) : t.entries.length ≤ 2 ^ 32 := by
  have hall : 0 + t.entries.length ≤ 2 ^ 32 := length_add_le t.sorted (fun _ _ => Nat.zero_le _) (Nat.zero_le _)
  omega

theorem insertEntry_of_lt {entries : List (SubroutineId × UInt64)} {id : SubroutineId} {index : UInt64}
    (h : ∀ e ∈ entries, e.1.number < id.number) : insertEntry id index entries = entries ++ [(id, index)] := by
  induction entries with
  | nil => rfl
  | cons e rest ih =>
    have he := UInt32.lt_iff_toNat_lt.1 (h e (List.mem_cons_self ..))
    have hnot : ¬ id.number < e.1.number := by
      rw [UInt32.lt_iff_toNat_lt]
      omega
    have hne : id ≠ e.1 := by
      rintro rfl
      exact Nat.lt_irrefl _ he
    rw [insertEntry, if_neg hnot, if_neg hne, ih fun e' he' => h e' (List.mem_cons_of_mem e he')]
    rfl

/-- Entries in ascending order make a table with just these entries. -/
theorem entries_ofList {entries : List (SubroutineId × UInt64)} (h : entries.Pairwise (·.1.number < ·.1.number)) :
    (ofList entries).entries = entries := by
  have hfold : ∀ (rest : List (SubroutineId × UInt64)) (t : SubroutineTable),
      (t.entries ++ rest).Pairwise (·.1.number < ·.1.number) →
        (rest.foldl (fun t e => t.insert e.1 e.2) t).entries = t.entries ++ rest := by
    intro rest
    induction rest with
    | nil => intro t _; rw [List.foldl_nil, List.append_nil]
    | cons e rest ih =>
      intro t hsorted
      have hinsert : (t.insert e.1 e.2).entries = t.entries ++ [e] :=
        insertEntry_of_lt fun e' he' => (List.pairwise_append.1 hsorted).2.2 e' he' e (List.mem_cons_self ..)
      rw [List.foldl_cons, ih _ (by rwa [hinsert, List.append_assoc]), hinsert, List.append_assoc]
      rfl
  exact hfold entries {} h

theorem ofList_entries (t : SubroutineTable) : ofList t.entries = t := by
  have hentries := entries_ofList t.sorted
  cases t
  cases h : ofList _
  simp_all

end SubroutineTable

namespace Program

/-- The lengths in the program are words, as they are on a machine whose addresses are words. -/
structure LengthsFit (p : Program) : Prop where
  code : p.code.length < 2 ^ 64
  objects : ∀ c ∈ p.code, c.LengthsFit

theorem reads {p : Program} (h : p.LengthsFit) : Reads Program.read p.encode p := by
  have hentries : p.subroutines.entries.length < 2 ^ 64 := by
    have := p.subroutines.length_entries_le
    omega
  have htable := (reads_list hentries fun e _ => SubroutineTable.reads_entry e).map
    fun entries => (⟨p.code, .ofList entries⟩ : Program)
  rw [SubroutineTable.ofList_entries, ← bind_pure_comp] at htable
  exact (reads_list h.code fun c hc => CodeObject.reads (h.objects c hc)).bind htable

/-- A program is read back from its bytes, whatever follows them.  From a proper front part of them nothing is read:
wherever they are cut, the bytes end too early. -/
theorem decode_encode {p : Program} (h : p.LengthsFit) :
    (∀ rest, decode (p.encode ++ rest) = .ok p) ∧
      ∀ front, front <+: p.encode → front ≠ p.encode → decode front = .error .endOfBytes := by
  refine ⟨fun rest => ?_, fun front hprefix hne => ?_⟩
  · rw [decode, (reads h).whole rest]
    rfl
  · obtain ⟨lost, hlost⟩ := hprefix
    have hnonempty : lost ≠ [] := by
      rintro rfl
      exact hne (by rw [← hlost, List.append_nil])
    rw [decode, (reads h).cut front lost hlost hnonempty]
    rfl

namespace Extremes

/-- Operands of the greatest and the least values, empty ones, and a name that is not in one byte to a character. -/
def program : Program where
  code := [⟨"main", #[.int (.ofNat (2 ^ 64 - 1)), .byte [], .jump (-2 ^ 31), .switch [], .switch [-1, 1]]⟩, ⟨"é", #[]⟩]
  subroutines := .ofList [(⟨300⟩, 1), (⟨2⟩, 0)]

theorem encode_program : program.encode =
    [2, 4, 109, 97, 105, 110, 5, 0, 255, 255, 255, 255, 255, 255, 255, 255, 255, 1, 1, 0, 21, 255, 255, 255, 255, 15, 23,
      0, 23, 2, 1, 2, 2, 195, 169, 0, 2, 2, 0, 172, 2, 1] := by
  cbv

end Extremes

open Extremes in
/-- Cut in the middle of its first operand, the program is not read. -/
theorem decode_encode_extremes : program.LengthsFit ∧ decode (program.encode ++ [7]) = .ok program ∧
    decode [2, 4, 109, 97, 105, 110, 5, 0, 255] = .error .endOfBytes := by
  have hfit : program.LengthsFit := by
    refine ⟨by decide, fun c hc => ?_⟩
    simp only [program, List.mem_cons, List.not_mem_nil, or_false] at hc
    rcases hc with rfl | rfl
    all_goals exact ⟨by decide, by decide, by simp [Operation.LengthsFit]⟩
  obtain ⟨hwhole, hcut⟩ := decode_encode hfit
  refine ⟨hfit, hwhole [7], hcut _ ?_ ?_⟩
  all_goals
    rw [encode_program]
    decide

end Program

end ScratchMachine
