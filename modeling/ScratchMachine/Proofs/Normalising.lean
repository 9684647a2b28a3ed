import ScratchMachine.Proofs.Spelling

/-!
# What decoding normalises

A reader that succeeds has taken spelled tokens off the front of the bytes, and these are the tokens of what it answers.
So bytes can differ from those that are written for the program only by numbers that are not minimal, and by the order
and the repetition of the entries for subroutines.

* `Operation.tokens`, `CodeObject.tokens`, `Program.tokens`: the tokens of the parts of a program and of the whole.
* `Reader.Takes`: what a reader takes off the front; `Reader.Takes.bind` puts two readers together.
* `Program.takes_readParts`: what is taken for a whole program.
* `Program.decode_normalises`: the bytes that are written for a program that was read.
-/

namespace ScratchMachine

/-! ### The tokens of a program -/

/-- The number of the operation, then the operand. -/
def Operation.tokens (op : Operation) : List Token := .number 32 op.tag :: operand op
where
  /-- The operand of an operation. -/
  operand : Operation → List Token
    | int n | load n | store n => [.number 64 n.toNat]
    | byte b => [.number 64 b.length, .content b]
    | jump o | jumpIfFalse o => [.number 32 (Varint.fold o)]
    | switch os => .number 64 os.length :: os.flatMap fun o => [.number 32 (Varint.fold o)]
    | callsub id => [.number 32 id.number.toNat]
    | _ => []

/-- The name, then the operations. -/
def CodeObject.tokens (c : CodeObject) : List Token :=
  [.number 64 c.name.utf8ByteSize, .content c.name.toUTF8.data.toList] ++
    .number 64 c.ops.size :: c.ops.toList.flatMap Operation.tokens

/-- The number of a subroutine and that of its code object. -/
def SubroutineTable.entryTokens (e : SubroutineId × UInt64) : List Token :=
  [.number 32 e.1.number.toNat, .number 64 e.2.toNat]

/-- The code objects, then entries for subroutines in any order. -/
def Program.tokens (code : List CodeObject) (entries : List (SubroutineId × UInt64)) : List Token :=
  (.number 64 code.length :: code.flatMap CodeObject.tokens) ++
    .number 64 entries.length :: entries.flatMap SubroutineTable.entryTokens

/-! ### What is written for them -/

theorem Token.encode_flatMap {α : Type} {l : List α} {tokens : α → List Token} {write : α → List UInt8}
    (h : ∀ a ∈ l, (tokens a).flatMap Token.encode = write a) :
    (l.flatMap tokens).flatMap Token.encode = l.flatMap write := by
  rw [List.flatMap_assoc]
  exact List.flatMap_congr h

theorem Operation.encode_tokens (op : Operation) : op.tokens.flatMap Token.encode = op.encode := by
  unfold Operation.tokens Operation.encode
  rw [List.flatMap_cons]
  congr 1
  cases op with
  | switch os => exact congrArg (Varint.encode os.length ++ ·) (Token.encode_flatMap fun o _ => List.append_nil _)
  | _ => simp [tokens.operand, operandBytes, Token.encode, Encoding.word, Encoding.bytes, Encoding.offset,
      Encoding.subroutineId]

theorem CodeObject.encode_tokens (c : CodeObject) : c.tokens.flatMap Token.encode = c.encode := by
  have hops : (c.ops.toList.flatMap Operation.tokens).flatMap Token.encode = c.ops.toList.flatMap Operation.encode :=
    Token.encode_flatMap fun op _ => op.encode_tokens
  simp [CodeObject.tokens, CodeObject.encode, Token.encode, Encoding.text, Encoding.bytes, Encoding.list, hops]

theorem SubroutineTable.encode_entryTokens (e : SubroutineId × UInt64) :
    (entryTokens e).flatMap Token.encode = encodeEntry e := by
  simp [entryTokens, encodeEntry, Token.encode, Encoding.subroutineId, Encoding.word]

/-- The code objects, then entries for subroutines as they come. -/
def Program.encodeParts (code : List CodeObject) (entries : List (SubroutineId × UInt64)) : List UInt8 :=
  Encoding.list CodeObject.encode code ++ Encoding.list SubroutineTable.encodeEntry entries

theorem Program.encode_tokens (code : List CodeObject) (entries : List (SubroutineId × UInt64)) :
    (tokens code entries).flatMap Token.encode = encodeParts code entries := by
  rw [tokens, List.flatMap_append, List.flatMap_cons, List.flatMap_cons,
    Token.encode_flatMap fun c _ => c.encode_tokens,
    Token.encode_flatMap fun e _ => SubroutineTable.encode_entryTokens e]
  rfl

/-! ### What readers take -/

namespace Reader

variable {α β : Type}

/-- If the reader succeeds, then it has taken bytes off the front that stand for tokens of which `post` holds, together
with the answer. -/
def Takes (read : Reader α) (post : α → List Token → Prop) : Prop :=
  ∀ bytes a rest, read.run bytes = .ok (a, rest) →
    ∃ tokens pieces, post a tokens ∧ List.Forall₂ Token.Spells tokens pieces ∧ bytes = pieces.flatten ++ rest

theorem takes_pure (a : α) : Takes (pure a) fun a' tokens => a' = a ∧ tokens = [] := by
  intro bytes a' rest h
  cases h
  exact ⟨[], [], ⟨rfl, rfl⟩, .nil, rfl⟩

theorem takes_throw (error : DecodeError) {post : α → List Token → Prop} : Takes (throw error) post := by
  intro bytes a rest h
  cases h

theorem Takes.bind {read : Reader α} {next : α → Reader β} {post : α → List Token → Prop}
    {post' : α → β → List Token → Prop} (h : Takes read post) (h' : ∀ a, Takes (next a) (post' a)) :
    Takes (read >>= next) fun b tokens => ∃ a ts ts', post a ts ∧ post' a b ts' ∧ tokens = ts ++ ts' := by
  intro bytes b rest hrun
  rw [StateT.run_bind] at hrun
  obtain ⟨⟨a, mid⟩, hread, hnext⟩ := except_bind_eq_ok.1 hrun
  obtain ⟨ts, pieces, hpost, hspells, rfl⟩ := h bytes a mid hread
  obtain ⟨ts', pieces', hpost', hspells', rfl⟩ := h' a mid b rest hnext
  refine ⟨ts ++ ts', pieces ++ pieces', ⟨a, ts, ts', hpost, hpost', rfl⟩, List.rel_append hspells hspells', ?_⟩
  rw [List.flatten_append, List.append_assoc]

theorem Takes.mono {read : Reader α} {post post' : α → List Token → Prop} (h : Takes read post)
    (himp : ∀ a tokens, post a tokens → post' a tokens) : Takes read post' := by
  intro bytes a rest hrun
  obtain ⟨ts, pieces, hpost, hspells, heq⟩ := h bytes a rest hrun
  exact ⟨ts, pieces, himp a ts hpost, hspells, heq⟩

theorem Takes.map {read : Reader α} {post : α → List Token → Prop} (h : Takes read post) (f : α → β) :
    Takes (f <$> read) fun b tokens => ∃ a, b = f a ∧ post a tokens := by
  rw [← bind_pure_comp]
  refine (h.bind fun a => takes_pure (f a)).mono ?_
  rintro b tokens ⟨a, ts, ts', hpost, ⟨rfl, rfl⟩, rfl⟩
  exact ⟨a, rfl, by rwa [List.append_nil]⟩

/-! ### Numbers -/

theorem takes_varint (width : Nat) :
    Takes (Varint.read width) fun n tokens => n < 2 ^ width ∧ tokens = [.number width n] := by
  intro bytes n rest h
  obtain ⟨front, rfl, hspells⟩ := Varint.spells_of_read h
  refine ⟨[.number width n], [front], ⟨hspells.lt, rfl⟩, .cons hspells .nil, ?_⟩
  rw [List.flatten_singleton]

theorem takes_word : Takes word fun n tokens => tokens = [.number 64 n.toNat] := by
  refine ((takes_varint 64).map _).mono ?_
  rintro _ _ ⟨n, rfl, hn, rfl⟩
  rw [UInt64.toNat_ofNat', Nat.mod_eq_of_lt hn]

theorem takes_subroutineId : Takes subroutineId fun id tokens => tokens = [.number 32 id.number.toNat] := by
  refine ((takes_varint 32).map _).mono ?_
  rintro _ _ ⟨n, rfl, hn, rfl⟩
  rw [UInt32.toNat_ofNat', Nat.mod_eq_of_lt hn]

theorem takes_offset : Takes offset fun o tokens => tokens = [.number 32 (Varint.fold o)] := by
  refine ((takes_varint 32).map _).mono ?_
  rintro _ _ ⟨n, rfl, hn, rfl⟩
  rw [Varint.fold_unfold hn]

/-! ### Texts and lists -/

theorem takes_take (count : Nat) : Takes (take count) fun b tokens => b.length = count ∧ tokens = [.content b] := by
  intro bytes b rest h
  rw [StateT.run, take] at h
  split at h
  · rename_i hle
    cases h
    refine ⟨[.content (bytes.take count)], [bytes.take count], ⟨List.length_take_of_le hle, rfl⟩, .cons rfl .nil, ?_⟩
    rw [List.flatten_singleton, List.take_append_drop]
  · cases h

theorem takes_bytes :
    Takes bytes fun b tokens => b.length < 2 ^ 64 ∧ tokens = [.number 64 b.length, .content b] := by
  refine ((takes_varint 64).bind takes_take).mono ?_
  rintro b _ ⟨n, _, _, ⟨hn, rfl⟩, ⟨rfl, rfl⟩, rfl⟩
  exact ⟨hn, rfl⟩

theorem takes_text : Takes text fun s tokens => s.utf8ByteSize < 2 ^ 64 ∧
    tokens = [.number 64 s.utf8ByteSize, .content s.toUTF8.data.toList] := by
  have hvalid : Takes text fun s tokens => ∃ b ts ts', (b.length < 2 ^ 64 ∧ ts = [.number 64 b.length, .content b]) ∧
      (s.toUTF8.data.toList = b ∧ ts' = []) ∧ tokens = ts ++ ts' := by
    refine takes_bytes.bind fun b => ?_
    split
    · rename_i s hs
      refine (takes_pure s).mono ?_
      rintro _ _ ⟨rfl, rfl⟩
      refine ⟨?_, rfl⟩
      unfold String.fromUTF8? at hs
      split at hs
      · cases hs
        rfl
      · cases hs
    · exact takes_throw _
  refine hvalid.mono ?_
  rintro s _ ⟨_, _, _, ⟨hlength, rfl⟩, ⟨rfl, rfl⟩, rfl⟩
  exact ⟨hlength, rfl⟩

theorem takes_many {read : Reader α} {P : α → Prop} {tokens : α → List Token}
    (h : Takes read fun a ts => P a ∧ ts = tokens a) (count : Nat) :
    Takes (many read count) fun l ts => l.length = count ∧ (∀ a ∈ l, P a) ∧ ts = l.flatMap tokens := by
  induction count with
  | zero =>
    refine (takes_pure []).mono ?_
    rintro _ _ ⟨rfl, rfl⟩
    exact ⟨rfl, by simp, rfl⟩
  | succ count ih =>
    refine (h.bind fun a => ih.bind fun rest => takes_pure (a :: rest)).mono ?_
    rintro _ _ ⟨a, _, _, ⟨ha, rfl⟩, ⟨rest, _, _, ⟨rfl, hrest, rfl⟩, ⟨rfl, rfl⟩, rfl⟩, rfl⟩
    exact ⟨rfl, List.forall_mem_cons.2 ⟨ha, hrest⟩, by rw [List.append_nil, List.flatMap_cons]⟩

theorem takes_list {read : Reader α} {P : α → Prop} {tokens : α → List Token}
    (h : Takes read fun a ts => P a ∧ ts = tokens a) :
    Takes (list read) fun l ts => (l.length < 2 ^ 64 ∧ ∀ a ∈ l, P a) ∧ ts = .number 64 l.length :: l.flatMap tokens := by
  refine ((takes_varint 64).bind (takes_many h)).mono ?_
  rintro l _ ⟨n, _, _, ⟨hn, rfl⟩, ⟨rfl, hall, rfl⟩, rfl⟩
  exact ⟨⟨hn, hall⟩, rfl⟩

end Reader

open Reader

/-! ### Operations -/

namespace Operation

theorem takes_operand (tag : Nat) :
    Takes (readOperand tag) fun op ts => op.tag = tag ∧ op.LengthsFit ∧ ts = tokens.operand op := by
  have hplain : ∀ op : Operation, op.tag = tag → op.LengthsFit → tokens.operand op = [] →
      Takes (pure op) fun op ts => op.tag = tag ∧ op.LengthsFit ∧ ts = tokens.operand op := by
    intro op htag hfit hnone
    refine (takes_pure op).mono ?_
    rintro _ _ ⟨rfl, rfl⟩
    exact ⟨htag, hfit, hnone.symm⟩
  have hword : ∀ make : UInt64 → Operation, (∀ n, (make n).tag = tag ∧ (make n).LengthsFit ∧
      tokens.operand (make n) = [.number 64 n.toNat]) →
      Takes (make <$> word) fun op ts => op.tag = tag ∧ op.LengthsFit ∧ ts = tokens.operand op := by
    intro make hmake
    refine (takes_word.map make).mono ?_
    rintro _ _ ⟨n, rfl, rfl⟩
    exact ⟨(hmake n).1, (hmake n).2.1, (hmake n).2.2.symm⟩
  have hoffset : ∀ make : Int32 → Operation, (∀ o, (make o).tag = tag ∧ (make o).LengthsFit ∧
      tokens.operand (make o) = [.number 32 (Varint.fold o)]) →
      Takes (make <$> offset) fun op ts => op.tag = tag ∧ op.LengthsFit ∧ ts = tokens.operand op := by
    intro make hmake
    refine (takes_offset.map make).mono ?_
    rintro _ _ ⟨o, rfl, rfl⟩
    exact ⟨(hmake o).1, (hmake o).2.1, (hmake o).2.2.symm⟩
  unfold readOperand
  split
  case h_1 | h_18 | h_19 => exact hword _ fun _ => ⟨rfl, trivial, rfl⟩
  case h_22 | h_23 => exact hoffset _ fun _ => ⟨rfl, trivial, rfl⟩
  case h_2 =>
    refine (takes_bytes.map byte).mono ?_
    rintro _ _ ⟨b, rfl, hb, rfl⟩
    exact ⟨rfl, hb, rfl⟩
  case h_24 =>
    have hoffsets := takes_list (P := fun _ => True) (takes_offset.mono fun o ts h => ⟨trivial, h⟩)
    refine (hoffsets.map switch).mono ?_
    rintro _ _ ⟨os, rfl, ⟨hlength, -⟩, rfl⟩
    exact ⟨rfl, hlength, rfl⟩
  case h_25 =>
    refine (takes_subroutineId.map callsub).mono ?_
    rintro _ _ ⟨id, rfl, rfl⟩
    exact ⟨rfl, trivial, rfl⟩
  case h_29 => exact takes_throw _
  all_goals exact hplain _ rfl trivial rfl

theorem takes_read : Takes Operation.read fun op ts => op.LengthsFit ∧ ts = op.tokens := by
  refine ((takes_varint 32).bind takes_operand).mono ?_
  rintro op _ ⟨tag, _, _, ⟨-, rfl⟩, ⟨rfl, hfit, rfl⟩, rfl⟩
  exact ⟨hfit, rfl⟩

end Operation

/-! ### Programs -/

theorem CodeObject.takes_read : Takes CodeObject.read fun c ts => c.LengthsFit ∧ ts = c.tokens := by
  refine (takes_text.bind fun name => (takes_list Operation.takes_read).bind fun ops =>
    takes_pure (⟨name, ops.toArray⟩ : CodeObject)).mono ?_
  rintro _ _ ⟨name, _, _, ⟨hname, rfl⟩, ⟨ops, _, _, ⟨⟨hlength, hops⟩, rfl⟩, ⟨rfl, rfl⟩, rfl⟩, rfl⟩
  exact ⟨⟨hname, hlength, hops⟩, by rw [List.append_nil]; rfl⟩

namespace SubroutineTable

theorem takes_readEntry : Takes readEntry fun e ts => True ∧ ts = entryTokens e := by
  refine (takes_subroutineId.bind fun id => takes_word.bind fun index => takes_pure (id, index)).mono ?_
  rintro _ _ ⟨id, _, _, rfl, ⟨index, _, _, rfl, ⟨rfl, rfl⟩, rfl⟩, rfl⟩
  exact ⟨trivial, rfl⟩

variable {weight : SubroutineId × UInt64 → Nat}

theorem sum_insertEntry_le (id : SubroutineId) (index : UInt64) (l : List (SubroutineId × UInt64)) :
    ((insertEntry id index l).map weight).sum ≤ weight (id, index) + (l.map weight).sum := by
  induction l with
  | nil => exact Nat.le_refl _
  | cons e rest ih =>
    unfold insertEntry
    split
    · exact Nat.le_refl _
    · split
      · simp only [List.map_cons, List.sum_cons]
        omega
      · simp only [List.map_cons, List.sum_cons] at ih ⊢
        omega

/-- A table holds no more than the entries that it is made of. -/
theorem sum_ofList_le (weight : SubroutineId × UInt64 → Nat) (entries : List (SubroutineId × UInt64)) :
    ((ofList entries).entries.map weight).sum ≤ (entries.map weight).sum := by
  have hfold : ∀ (rest : List (SubroutineId × UInt64)) (t : SubroutineTable),
      ((rest.foldl (fun t e => t.insert e.1 e.2) t).entries.map weight).sum ≤
        (t.entries.map weight).sum + (rest.map weight).sum := by
    intro rest
    induction rest with
    | nil => exact fun t => Nat.le_refl _
    | cons e rest ih =>
      intro t
      have hinsert : ((t.insert e.1 e.2).entries.map weight).sum ≤ weight e + (t.entries.map weight).sum :=
        sum_insertEntry_le e.1 e.2 t.entries
      have hrest := ih (t.insert e.1 e.2)
      rw [List.foldl_cons, List.map_cons, List.sum_cons]
      omega
  have hall := hfold entries {}
  rwa [show ((({} : SubroutineTable).entries.map weight).sum) = 0 from rfl, Nat.zero_add] at hall

/-- The bytes of a table are no more than those of the entries that it is made of. -/
theorem length_encode_ofList_le (entries : List (SubroutineId × UInt64)) :
    (Encoding.list encodeEntry (ofList entries).entries).length ≤ (Encoding.list encodeEntry entries).length := by
  have hcount := sum_ofList_le (fun _ => 1) entries
  have hbytes := sum_ofList_le (fun e => (encodeEntry e).length) entries
  simp only [List.map_const', List.sum_replicate_nat, Nat.mul_one] at hcount
  rw [Encoding.list, Encoding.list, List.length_append, List.length_append, List.length_flatMap, List.length_flatMap]
  exact Nat.add_le_add (Varint.length_encode_mono hcount) hbytes

end SubroutineTable

namespace Program

/-- Reads the code objects and the entries for subroutines, as they come. -/
def readParts : Reader (List CodeObject × List (SubroutineId × UInt64)) := do
  let code ← Reader.list CodeObject.read
  let entries ← Reader.list SubroutineTable.readEntry
  return (code, entries)

theorem read_eq : read = (fun parts => ⟨parts.1, .ofList parts.2⟩) <$> readParts := by
  simp [read, readParts]

theorem takes_readParts : Takes readParts fun parts ts =>
    (parts.1.length < 2 ^ 64 ∧ ∀ c ∈ parts.1, c.LengthsFit) ∧ ts = tokens parts.1 parts.2 := by
  refine ((takes_list CodeObject.takes_read).bind fun code =>
    (takes_list SubroutineTable.takes_readEntry).bind fun entries => takes_pure (code, entries)).mono ?_
  rintro _ _ ⟨code, _, _, ⟨hcode, rfl⟩, ⟨entries, _, _, ⟨-, rfl⟩, ⟨rfl, rfl⟩, rfl⟩, rfl⟩
  exact ⟨hcode, by rw [List.append_nil]; rfl⟩

/-- What is written for code objects and entries is read back, whatever follows. -/
theorem reads_parts {p : Program} (h : p.LengthsFit) :
    Reads readParts p.encode (p.code, p.subroutines.entries) := by
  have hentries : p.subroutines.entries.length < 2 ^ 64 := by
    have := p.subroutines.length_entries_le
    omega
  have htable := (reads_list hentries fun e _ => SubroutineTable.reads_entry e).map fun entries => (p.code, entries)
  rw [← bind_pure_comp] at htable
  exact (reads_list h.code fun c hc => CodeObject.reads (h.objects c hc)).bind htable

/-- A program that was read from the front of some bytes: the bytes that were taken stand for its tokens, with entries
for subroutines of which the later win.  What is written for the program is not longer and is read as the same program,
and it is what was taken exactly if every number was spelled in the minimal way and the entries came in ascending
order. -/
theorem decode_normalises {bytes : List UInt8} {p : Program} (h : decode bytes = .ok p) :
    ∃ pieces entries rest, bytes = pieces.flatten ++ rest ∧ read.run bytes = .ok (p, rest) ∧
      p.subroutines = .ofList entries ∧ List.Forall₂ Token.Spells (tokens p.code entries) pieces ∧
      p.encode.length ≤ pieces.flatten.length ∧ decode p.encode = .ok p ∧
      (p.encode = pieces.flatten ↔ List.Forall₂ Token.Minimal (tokens p.code entries) pieces ∧
        entries.Pairwise (·.1.number < ·.1.number)) := by
  obtain ⟨code, entries, rest, hparts, rfl⟩ : ∃ code entries rest, readParts.run bytes = .ok ((code, entries), rest) ∧
      p = ⟨code, .ofList entries⟩ := by
    rw [decode, read_eq, StateT.run_map] at h
    cases hrun : readParts.run bytes with
    | error e =>
      rw [hrun] at h
      cases h
    | ok answer =>
      rw [hrun] at h
      cases h
      exact ⟨_, _, _, rfl, rfl⟩
  obtain ⟨_, pieces, ⟨⟨hcode, hobjects⟩, rfl⟩, hspells, hbytes⟩ := takes_readParts _ _ _ hparts
  have hfit : LengthsFit ⟨code, .ofList entries⟩ := ⟨hcode, hobjects⟩
  refine ⟨pieces, entries, rest, hbytes, ?_, rfl, hspells, ?_, ?_, ?_⟩
  · rw [read_eq, StateT.run_map, hparts]
    rfl
  · calc (Program.mk code (.ofList entries)).encode.length
        ≤ (encodeParts code entries).length := by
          rw [encode, encodeParts, List.length_append, List.length_append]
          exact Nat.add_le_add_left (SubroutineTable.length_encode_ofList_le entries) _
      _ = ((tokens code entries).flatMap Token.encode).length := by rw [encode_tokens]
      _ ≤ pieces.flatten.length := Token.length_flatten_le hspells
  · have hwhole := (reads hfit).whole []
    rw [List.append_nil] at hwhole
    rw [decode, hwhole]
    rfl
  · constructor
    · intro heq
      -- what was written is read with the entries of the table, and what was taken with those that came
      have hwhole := (reads_parts hfit).whole rest
      rw [heq, ← hbytes, hparts] at hwhole
      have hentries : entries = (SubroutineTable.ofList entries).entries :=
        congrArg (·.1.2) (Except.ok.inj hwhole)
      refine ⟨(Token.flatten_eq_iff hspells).1 ?_, ?_⟩
      · rw [encode_tokens, ← heq, encode, ← hentries]
        rfl
      · rw [hentries]
        exact (SubroutineTable.ofList entries).sorted
    · rintro ⟨hminimal, hsorted⟩
      rw [(Token.flatten_eq_iff hspells).2 hminimal, encode_tokens, encode, SubroutineTable.entries_ofList hsorted]
      rfl

namespace Padded

/-- A program behind which a byte follows.  The number of its only operation has a digit that could be left out, and of
three entries for subroutines two are for the same. -/
def input : List UInt8 := [1, 4, 109, 97, 105, 110, 1, 130, 0, 3, 2, 0, 1, 0, 2, 5, 9]

def program : Program := ⟨[⟨"main", #[.pop]⟩], .ofList [(⟨1⟩, 0), (⟨2⟩, 5)]⟩

theorem encode_program : program.encode = [1, 4, 109, 97, 105, 110, 1, 2, 2, 1, 0, 2, 5] := by
  cbv

end Padded

open Padded in
/-- What is written for the program is shorter than what was read. -/
theorem decode_normalises_padded : decode input = .ok program ∧
    ∃ pieces entries rest, input = pieces.flatten ++ rest ∧ program.encode.length ≤ pieces.flatten.length ∧
      List.Forall₂ Token.Spells (tokens program.code entries) pieces ∧ decode program.encode = .ok program ∧
      ¬ (List.Forall₂ Token.Minimal (tokens program.code entries) pieces ∧
        entries.Pairwise (·.1.number < ·.1.number)) := by
  have hdecode : decode input = .ok program := by cbv
  obtain ⟨pieces, entries, rest, hbytes, -, -, hspells, hlength, hagain, hiff⟩ := decode_normalises hdecode
  refine ⟨hdecode, pieces, entries, rest, hbytes, hlength, hspells, hagain, fun hnormal => ?_⟩
  have hfront : program.encode <+: input := by
    rw [hiff.2 hnormal, hbytes]
    exact List.prefix_append _ _
  rw [encode_program] at hfront
  revert hfront
  decide

end Program

end ScratchMachine
