/-
  Fnd.Chain.Fetch — the name import over the node's answers (`protocol/name_importer.go`,
  `fetchBlocks`).

  The node answers a height with a block in hexadecimal, or not at all. The import asks for
  blocks and for lookups that may fail (`Protocol.Source`, `Protocol.Round`); here both come from
  the answers: a height has the block that is decoded from its answer, and fails without one
  (`fetchBlocks_eq`).

  `import_of_answers`: if every answer is the chain's block in full, or a start of it that does
  not end between the mask and the first count, or no hexadecimal text, then what is stored is what
  the import stores from the chain itself, some fetches failing. A start that ends there is taken
  for a block without transactions (`fetchBlock_window`): its height is stored, its names are not.
-/

import Fnd.Lib.Hex
import Fnd.Chain.Block

namespace Fnd.Chain

open Protocol (Source Round NameImporter ChainInfo)
open Store (DB)

variable {H K G : Type}

/-- The part of a block that the import reads. -/
def Block.toProtocol (b : Block) : Protocol.Block := ⟨b.transactions.map fun t => ⟨t.outputs.map fun o => ⟨o.covenant⟩⟩⟩

/-- A worker of `fetchBlocks`. A panic ends the import as an error does. -/
def fetchBlock (answer : Option Bytes) : Option Block :=
  match answer with
  | none => none
  | some blockHex =>
    match Hex.decode blockHex with
    | none => none
    | some blockB =>
      match Block.decode blockB with
      | .error _ => none
      | .ok (block, _) => some block

/-- What the node answers during a round, block by block. -/
structure Answers where
  info : Option ChainInfo
  block : Int → Option Bytes
  resolves : Int → Bytes → Bool

def fetchBlocks (a : Answers) (start : Int) (count : Nat) : Option (List Block) :=
  (List.range count).mapM fun i : Nat => fetchBlock (a.block (start + i))

def Answers.round (a : Answers) : Round := ⟨a.info, fun height => (fetchBlock (a.block height)).isSome, a.resolves⟩

/-- The source with the blocks that were answered. -/
def Answers.source (a : Answers) (src : Source K) : Source K :=
  { src with block := fun height => ((fetchBlock (a.block height)).map Block.toProtocol).getD ⟨[]⟩ }

theorem Answers.fetch_eq (a : Answers) (src : Source K) (height : Int) :
    (if a.round.fetches height then some ((a.source src).block height) else none) =
      (fetchBlock (a.block height)).map Block.toProtocol := by
  have h : ∀ fetched : Option Block, (if fetched.isSome then some ((fetched.map Block.toProtocol).getD ⟨[]⟩) else none) =
      fetched.map Block.toProtocol := by
    rintro (_ | b)
    · rfl
    · rfl
  exact h _

theorem fetchBlocks_eq (a : Answers) (src : Source K) (start : Int) (count : Nat) :
    Protocol.fetchBlocks (a.source src) a.round start count = (fetchBlocks a start count).map (List.map Block.toProtocol) := by
  simp only [Protocol.fetchBlocks, fetchBlocks, a.fetch_eq src]
  induction List.range count with
  | nil => rfl
  | cons i is ih =>
    rw [List.mapM_cons, List.mapM_cons, ih]
    cases fetchBlock (a.block (start + i)) with
    | none => rfl
    | some b => cases is.mapM fun i : Nat => fetchBlock (a.block (start + i)) <;> rfl

/-- Round after round, each over its answers. -/
def importAnswers (n : NameImporter) (src : Source K) : List Answers → DB H K G → List (DB H K G)
  | [], _ => []
  | a :: as, db =>
    let dbs := Protocol.doSync n (a.source src) a.round db
    dbs ++ importAnswers n src as (dbs.getLastD db)

/-! ## Answers from the chain -/

/-- In the part of a header from which on a block is accepted without its transactions. -/
def InWindow (bs : Bytes) : Prop := Header.beforeMask < bs.length ∧ bs.length ≤ Header.size

/-- An answer for `b`: not hexadecimal, the block and what may follow, or a start of it. -/
def Faithful (b : Block) (text : Bytes) : Prop :=
  ∀ bs, Hex.decode text = some bs → (∃ more, bs = b.encode ++ more) ∨ (∃ zs, bs ++ zs = b.encode ∧ zs ≠ []) ∧ ¬ InWindow bs

theorem toProtocol_shorn {b : Block} {init : List Transaction} {t t' : Transaction} (htxs : b.transactions = init ++ [t])
    (h : Shorn t t') : Block.toProtocol { b with transactions := init ++ [t'] } = b.toProtocol := by
  obtain ⟨init', w, w', rest, -, -, rfl⟩ := h
  rw [Block.toProtocol, Block.toProtocol, htxs, List.map_append, List.map_append]
  rfl

theorem fetchBlock_window {b : Block} {text bs zs : Bytes} (htext : Hex.decode text = some bs) (hbs : bs ++ zs = b.encode)
    (hwindow : InWindow bs) : (fetchBlock (some text)).map Block.toProtocol = some ⟨[]⟩ := by
  obtain ⟨mask, hmask⟩ := Block.decode_window hbs hwindow.1 hwindow.2
  simp only [fetchBlock, htext, hmask]
  rfl

/-- A block from a faithful answer is the chain's, as far as the import reads it. -/
theorem toProtocol_of_faithful {b : Block} (hb : b.Valid) {text : Bytes} (h : Faithful b text) {b' : Block}
    (hfetch : fetchBlock (some text) = some b') : b'.toProtocol = b.toProtocol := by
  unfold fetchBlock at hfetch
  cases htext : Hex.decode text with
  | none => simp only [htext] at hfetch; cases hfetch
  | some bs =>
    rcases h bs htext with ⟨more, rfl⟩ | ⟨⟨zs, hbs, hz⟩, hwindow⟩
    · simp only [htext, Block.decode_reads hb more, Option.some.injEq] at hfetch
      rw [hfetch]
    · rcases Block.decode_cut hb bs zs hbs hz with ⟨e, he⟩ | ⟨b'', hok, ⟨hlo, hhi, -⟩ | ⟨-, init, t, t', htxs, hshorn, rfl⟩⟩
      · simp only [htext, he] at hfetch
        cases hfetch
      · exact absurd ⟨hlo, hhi⟩ hwindow
      · simp only [htext, hok, Option.some.injEq] at hfetch
        rw [← hfetch, toProtocol_shorn htxs hshorn]

section Chain

variable {chain : Int → Block} {src : Source K} {a : Answers}

theorem fetchBlocks_chain (hvalid : ∀ height, (chain height).Valid)
    (hsrc : ∀ height, src.block height = (chain height).toProtocol)
    (ha : ∀ height text, a.block height = some text → Faithful (chain height) text) :
    Protocol.fetchBlocks (a.source src) a.round = Protocol.fetchBlocks src a.round := by
  funext start count
  unfold Protocol.fetchBlocks
  congr 1
  funext i
  rw [a.fetch_eq src]
  have hfetches : a.round.fetches (start + i) = (fetchBlock (a.block (start + i))).isSome := rfl
  rcases Option.eq_none_or_eq_some (fetchBlock (a.block (start + i))) with hfetch | ⟨b, hfetch⟩
  · rw [hfetch] at hfetches
    rw [hfetch, if_neg (by rw [hfetches]; exact Bool.false_ne_true)]
    rfl
  · rw [hfetch, Option.isSome_some] at hfetches
    rw [hfetch, if_pos hfetches, hsrc]
    cases hanswer : a.block (start + i) with
    | none => rw [hanswer] at hfetch; cases hfetch
    | some text =>
      rw [hanswer] at hfetch
      rw [Option.map_some, toProtocol_of_faithful (hvalid _) (ha _ text hanswer) hfetch]

/-- The blocks of a source are read where they are fetched, and nowhere else. -/
theorem syncLoop_source (n : NameImporter) (r : Round) (h : Protocol.fetchBlocks (a.source src) r = Protocol.fetchBlocks src r)
    (confirmedHeight : Int) (fuel : Nat) (height : Int) (db : DB H K G) :
    Protocol.syncLoop n (a.source src) r confirmedHeight fuel height db =
      Protocol.syncLoop n src r confirmedHeight fuel height db := by
  induction fuel generalizing height db with
  | zero => rfl
  | succ fuel ih =>
    have hbatch : Protocol.importBatch (H := H) (G := G) (a.source src) r confirmedHeight =
      Protocol.importBatch src r confirmedHeight := by
      funext height blocks
      induction blocks generalizing height with
      | nil => rfl
      | cons block blocks ihb => funext db; simp only [Protocol.importBatch, ihb]; rfl
    simp only [Protocol.syncLoop, h, hbatch, ih]

end Chain

/-- From faithful answers the import stores what it stores from the chain, a fetch failing where
    there is no answer or where it is refused. -/
theorem import_of_answers (n : NameImporter) (src : Source K) (chain : Int → Block) (hvalid : ∀ height, (chain height).Valid)
    (hsrc : ∀ height, src.block height = (chain height).toProtocol) (as : List Answers)
    (has : ∀ a ∈ as, ∀ height text, a.block height = some text → Faithful (chain height) text) (db : DB H K G) :
    importAnswers n src as db = Protocol.sync n src (as.map Answers.round) db := by
  induction as generalizing db with
  | nil => rfl
  | cons a as ih =>
    obtain ⟨ha, has⟩ := List.forall_mem_cons.mp has
    have hround : Protocol.doSync n (a.source src) a.round db = Protocol.doSync n src a.round db := by
      simp only [Protocol.doSync, syncLoop_source n a.round (fetchBlocks_chain hvalid hsrc ha)]
    rw [importAnswers, List.map_cons, Protocol.sync, hround, ih has]

/-! ## A cut answer -/

theorem faithful_start (b : Block) {k : Nat} (hk : ¬ (Header.beforeMask < k ∧ k ≤ Header.size)) :
    Faithful b (Hex.encode (b.encode.take k)) := by
  intro bs hbs
  rw [Hex.decode_encode, Option.some.injEq] at hbs
  subst hbs
  by_cases hle : b.encode.length ≤ k
  · exact .inl ⟨[], by rw [List.take_of_length_le hle, List.append_nil]⟩
  · refine .inr ⟨⟨b.encode.drop k, List.take_append_drop k _, ?_⟩, fun hwindow => hk ?_⟩
    · exact List.length_pos_iff.mp (by rw [List.length_drop]; omega)
    · have hlen : (b.encode.take k).length = k := by rw [List.length_take]; omega
      rwa [InWindow, hlen] at hwindow

/-- A resource is one text record, a key its first character, a hash the name. -/
def sampleSource : Source UInt8 where
  block _ := sampleBlock.toProtocol
  decodeResource bs := some [.txt [bs]]
  decodeBase64 := some
  parsePubKey bs := bs.head?
  nameByHash := id

/-- The block at height 2 comes without its last two bytes, that at height 3 without its last four. -/
def cutAnswers : Answers where
  info := some ⟨5, false⟩
  block height := some (Hex.encode (sampleBlock.encode.take (if height = 2 then 355 else if height = 3 then 353 else 357)))
  resolves _ _ := true

theorem faithful_cutAnswers (height : Int) (text : Bytes) (h : cutAnswers.block height = some text) :
    Faithful sampleBlock text := by
  cases h
  refine faithful_start sampleBlock ?_
  split
  · decide
  split
  · decide
  · decide

def sampleDB : DB Nat UInt8 Nat := DB.empty (fun _ => none) fun _ => false

/-- The second block lacks a witness and is imported; the third is refused. -/
theorem short_answers_are_imported_or_refused :
    importAnswers ⟨0, 1, by decide⟩ sampleSource [cutAnswers] sampleDB =
      Protocol.sync ⟨0, 1, by decide⟩ sampleSource [cutAnswers.round] sampleDB ∧
    (importAnswers ⟨0, 1, by decide⟩ sampleSource [cutAnswers] sampleDB).map
      (fun db => (db.lastNameImportHeight, db.nameInfo [1])) = [(1, some ⟨[1], 0x41, 1⟩), (2, some ⟨[1], 0x41, 2⟩)] := by
  refine ⟨import_of_answers _ sampleSource (fun _ => sampleBlock) (fun _ => valid_sampleBlock) (fun _ => rfl)
    [cutAnswers] ?_ sampleDB, ?_⟩
  · exact List.forall_mem_singleton.mpr faithful_cutAnswers
  · decide +kernel

end Fnd.Chain
