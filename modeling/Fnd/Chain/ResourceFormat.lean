/-
  Fnd.Chain.ResourceFormat — which bytes are resources, and what the import takes from them.

  (1) `read_back`: what `Encode` returns is read back, or it was cut and is refused. `Decode` ends on
  every input, since names are read forward.
  (2) `decode_iff_encode`: without names the format is exact. Below 1024 bytes, `Decode` takes what
  `Encode` writes and nothing else.
  (3) `covenant_gives_last_key`: a Register or Update with an encoded resource of at most 512 bytes
  gives its name the key of the last text entry that has one, and that is the block's record for the
  name unless a later output has one. Names of servers have to be proper for this: after an empty
  one, for which nothing is written, `Decode` reads the next record as its name.
-/

import Fnd.Chain.DomainName
import Fnd.Protocol.TXTRecords

namespace Fnd.Chain

open Decoder (Takes Within times)
open BoundedWriter (Puts)
open Protocol (Source Covenant FNRecord)

/-! ## Every input -/

theorem takes_readFull (n : Nat) : Takes (readFull n) fun a us => us = a.1 := by
  intro xs a rest hread
  by_cases hle : n ≤ xs.length
  · rw [readFull, dif_pos hle] at hread
    cases hread
    exact ⟨xs.take n, (List.take_append_drop n xs).symm, rfl⟩
  · rw [readFull, dif_neg hle] at hread
    cases hread

theorem takes_readUint8 : Takes readUint8 fun v us => us = [v] := by
  intro xs v rest hread
  cases xs with
  | nil => cases hread
  | cons x xs =>
    have hx : readUint8 (x :: xs) = .ok (x, xs) := readUint8_reads x xs
    rw [hx] at hread
    cases hread
    exact ⟨[v], rfl, rfl⟩

theorem takes_readUint16BE : Takes readUint16BE fun v us => us = writeUint16BE v := by
  refine (takes_readFull 2).bind fun a us hus => Takes.pure ?_
  have hlt := LittleEndian.get_lt a.1.reverse
  have hput := LittleEndian.put_get a.1.reverse
  rw [List.length_reverse, a.2] at hlt hput
  rw [List.append_nil, hus, writeUint16BE, UInt16.toNat_ofNat_of_lt' hlt, hput, List.reverse_reverse]

theorem takes_readIP (n : Nat) : Takes (readIP n) fun ip us => us = ip ∧ ip.length = n := by
  refine (takes_readFull n).bind fun a us hus => Takes.pure ?_
  rw [List.append_nil]
  exact ⟨hus, a.2⟩

theorem takes_readShort : Takes readShort fun p us => us = short p ∧ p.length ≤ 255 := by
  refine takes_readUint8.bind fun l us hus => (takes_readFull l.toNat).bind fun a vs hvs => Takes.pure ?_
  have hl := l.toNat_lt
  rw [List.append_nil, hus, hvs, short, a.2, UInt8.ofNat_toNat]
  exact ⟨rfl, by omega⟩

/-- The fields of a record without names, as they are written. -/
def ResourceRecord.fields : ResourceRecord → Bytes
  | .ds keyTag algorithm digestType digest => writeUint16BE keyTag ++ ([algorithm] ++ ([digestType] ++ short digest))
  | .synth4 address | .synth6 address => address
  | .txt entries => [UInt8.ofNat entries.length] ++ (entries.map short).flatten
  | _ => []

/-- The lengths that can be written. -/
def ResourceRecord.Fits : ResourceRecord → Prop
  | .ds _ _ _ digest => digest.length ≤ 255
  | .synth4 address => address.length = 4
  | .synth6 address => address.length = 16
  | .txt entries => entries.length ≤ 255 ∧ ∀ entry ∈ entries, entry.length ≤ 255
  | _ => True

def Exact (r : ResourceRecord) (us : Bytes) : Prop := us = r.fields ∧ r.Fits

theorem takes_readDS : Takes readDS fun r us => Exact r us ∧ r.type = 0 := by
  refine takes_readUint16BE.bind fun keyTag us hus => takes_readUint8.bind fun algorithm vs hvs =>
    takes_readUint8.bind fun digestType ws hws => takes_readShort.bind fun digest xs hxs => Takes.pure ?_
  rw [List.append_nil, hus, hvs, hws, hxs.1]
  exact ⟨⟨rfl, hxs.2⟩, rfl⟩

theorem takes_readTXT : Takes readTXT fun r us => Exact r us ∧ r.type = 6 := by
  refine takes_readUint8.bind fun count us hus => (takes_readShort.times count.toNat).bind fun entries vs hvs => Takes.pure ?_
  have hcount := count.toNat_lt
  obtain ⟨rfl, hlen, hentries⟩ := hvs
  refine ⟨⟨?_, ?_, hentries⟩, rfl⟩
  · rw [List.append_nil, hus, ResourceRecord.fields, hlen, UInt8.ofNat_toNat]
  · omega

theorem takes_readSynth (n : Nat) (synth : Bytes → ResourceRecord) :
    Takes (readSynth n synth) fun r us => ∃ ip : Bytes, r = synth ip ∧ us = ip ∧ ip.length = n := by
  refine (takes_readIP n).bind fun ip us hus => Takes.pure ⟨ip, rfl, ?_, hus.2⟩
  rw [List.append_nil]
  exact hus.1

section

variable {M : Type} {dn : DomainNames M} {Proper : Bytes → Prop} {canonical : Bytes → Bytes} {Sound : Bytes → M → Prop}

theorem readNS_named {b xs rest : Bytes} {r : ResourceRecord} (h : readNS dn b xs = .ok (r, rest)) : r.names ≠ [] := by
  rw [readNS, Decoder.bind_apply] at h
  cases hname : readName dn b xs with
  | error e => rw [hname] at h; cases h
  | ok p =>
    rw [hname] at h
    cases h
    exact List.cons_ne_nil _ _

theorem readGlue_named {b xs rest : Bytes} {n : Nat} {glue : Bytes → Bytes → ResourceRecord} {r : ResourceRecord}
    (h : readGlue dn b n glue xs = .ok (r, rest)) (hglue : ∀ server address, (glue server address).names ≠ []) :
    r.names ≠ [] := by
  rw [readGlue, Decoder.bind_apply] at h
  cases hname : readName dn b xs with
  | error e => rw [hname] at h; cases h
  | ok p =>
    rw [hname] at h
    obtain ⟨_, _, server, hr⟩ := (takes_readIP n).bind (S := fun r _ => ∃ addr, r = glue p.1 addr)
      (fun addr _ _ => Takes.pure ⟨addr, rfl⟩) p.2 r rest h
    rw [hr]
    exact hglue _ _

theorem decode_exact {b xs rest : Bytes} {recType : UInt8} {r : ResourceRecord}
    (h : ResourceRecord.decode dn b recType xs = .ok (r, rest)) (hfree : r.names = []) :
    ∃ us, xs = us ++ rest ∧ Exact r us ∧ r.type = recType := by
  unfold ResourceRecord.decode at h
  split at h
  · rename_i htype
    exact htype ▸ takes_readDS _ _ _ h
  split at h
  · exact absurd hfree (readNS_named h)
  split at h
  · exact absurd hfree (readGlue_named h fun _ _ => List.cons_ne_nil _ _)
  split at h
  · exact absurd hfree (readGlue_named h fun _ _ => List.cons_ne_nil _ _)
  split at h
  · rename_i htype
    obtain ⟨us, hxs, ip, rfl, rfl, hlen⟩ := takes_readSynth _ _ _ _ _ h
    exact ⟨us, hxs, ⟨rfl, hlen⟩, htype.symm⟩
  split at h
  · rename_i htype
    obtain ⟨us, hxs, ip, rfl, rfl, hlen⟩ := takes_readSynth _ _ _ _ _ h
    exact ⟨us, hxs, ⟨rfl, hlen⟩, htype.symm⟩
  split at h
  · rename_i htype
    exact htype ▸ takes_readTXT _ _ _ h
  · cases h

def ResourceRecord.bytes (r : ResourceRecord) : Bytes := [r.type] ++ r.fields

theorem decodeRecords_exact {b : Bytes} : ∀ (rounds : Nat) (bs : Bytes) (records : List ResourceRecord),
    decodeRecords dn b rounds bs = some (.ok records) → (∀ r ∈ records, r.names = []) →
    bs = (records.map ResourceRecord.bytes).flatten ∧ ∀ r ∈ records, r.Fits := by
  intro rounds
  induction rounds with
  | zero =>
    intro bs records h _
    cases bs with
    | nil =>
      cases h
      exact ⟨rfl, fun r hr => absurd hr List.not_mem_nil⟩
    | cons x bs =>
      have hx : readUint8 (x :: bs) = .ok (x, bs) := readUint8_reads x bs
      rw [decodeRecords, hx] at h
      cases h
  | succ rounds ih =>
    intro bs records h hfree
    cases bs with
    | nil =>
      cases h
      exact ⟨rfl, fun r hr => absurd hr List.not_mem_nil⟩
    | cons x bs =>
      have hx : readUint8 (x :: bs) = .ok (x, bs) := readUint8_reads x bs
      rw [decodeRecords, hx] at h
      dsimp only at h
      cases hrecord : ResourceRecord.decode dn b x bs with
      | error e => rw [hrecord] at h; cases h
      | ok p =>
        obtain ⟨r, rest⟩ := p
        rw [hrecord] at h
        dsimp only at h
        rcases hloop : decodeRecords dn b rounds rest with _ | (e | rs)
        · rw [hloop] at h; cases h
        · rw [hloop] at h; cases h
        · rw [hloop] at h
          cases h
          obtain ⟨hr, hrs⟩ := List.forall_mem_cons.mp hfree
          obtain ⟨us, rfl, ⟨rfl, hfits⟩, rfl⟩ := decode_exact hrecord hr
          obtain ⟨rfl, hall⟩ := ih rest rs hloop hrs
          exact ⟨rfl, List.forall_mem_cons.mpr ⟨hfits, hall⟩⟩

theorem to4_of_length {ip : Bytes} (h : ip.length = 4) : to4 ip = some ip := if_pos h

theorem to16_of_length {ip : Bytes} (h : ip.length = 16) : Wire.to16 ip = some ip := by
  rw [Wire.to16, if_neg (by omega), if_pos h]

theorem puts_byte (v : UInt8) : Puts bufLen (put [v] : ResourceWriter M PUnit) [v] := BoundedWriter.puts_write _ _ _

theorem puts_short (p : Bytes) : Puts bufLen (do put [UInt8.ofNat p.length]; put p : ResourceWriter M PUnit) (short p) :=
  (puts_byte _).bind (BoundedWriter.puts_write _ _ p)

theorem puts_encodeRecord {r : ResourceRecord} (hfree : r.names = []) (hfits : r.Fits) :
    Puts bufLen (encodeRecord dn r) r.bytes := by
  refine (puts_byte _).bind ?_
  cases r with
  | ds keyTag algorithm digestType digest =>
    have hle : ¬ digest.length > 255 := Nat.not_lt.mpr hfits
    rw [ResourceRecord.encode, if_neg hle]
    exact (BoundedWriter.puts_write _ _ _).bind ((puts_byte _).bind ((puts_byte _).bind (puts_short digest)))
  | ns server => cases hfree
  | glue4 server address => cases hfree
  | glue6 server address => cases hfree
  | synth4 address =>
    rw [ResourceRecord.encode, to4_of_length hfits]
    exact BoundedWriter.puts_write _ _ _
  | synth6 address =>
    rw [ResourceRecord.encode, to16_of_length hfits]
    exact BoundedWriter.puts_write _ _ _
  | txt entries =>
    have hle : ¬ entries.length > 255 := Nat.not_lt.mpr hfits.1
    rw [ResourceRecord.encode, if_neg hle]
    refine (puts_byte _).bind (Puts.forM fun entry hentry => ?_)
    rw [writeEntry, if_neg (Nat.not_lt.mpr (hfits.2 entry hentry))]
    exact puts_short entry

theorem canonical_of_fits {r : ResourceRecord} (hfree : r.names = []) (hfits : r.Fits) : r.canonical canonical = r := by
  cases r with
  | ds keyTag algorithm digestType digest => rfl
  | ns server => cases hfree
  | glue4 server address => cases hfree
  | glue6 server address => cases hfree
  | synth4 address => rw [ResourceRecord.canonical, to4_of_length hfits, Option.getD_some]
  | synth6 address => rw [ResourceRecord.canonical, to16_of_length hfits, Option.getD_some]
  | txt entries => rfl

/-! ## Decode ends -/

/-- Without names, what is read is what would be written, if that is shorter than the buffer. -/
theorem decode_iff_encode (laws : NameLaws dn Proper canonical Sound) {b : Bytes} (hlen : b.length < bufLen)
    {records : List ResourceRecord} (hfree : ∀ r ∈ records, r.names = []) :
    decodeResource dn b = some (.ok records) ↔
      encodeResource dn records = .ok b ∧ records.map (·.canonical canonical) = records := by
  refine ⟨fun hdec => ?_, fun henc => ?_⟩
  · cases b with
    | nil => cases hdec
    | cons version bs =>
      have hbyte : readUint8 (version :: bs) = .ok (version, bs) := readUint8_reads version bs
      rw [decodeResource, hbyte] at hdec
      dsimp only at hdec
      split at hdec
      · cases hdec
      · rename_i hversion
        obtain ⟨rfl, hfits⟩ := decodeRecords_exact _ bs records hdec hfree
        have hputs : Puts bufLen (encodeRecords dn records) ([0] ++ (records.map ResourceRecord.bytes).flatten) :=
          (puts_byte 0).bind (Puts.forM fun r hr => puts_encodeRecord (hfree r hr) (hfits r hr))
        rw [Decidable.not_not.mp hversion] at hlen ⊢
        have hrun := hputs [] dn.compMap (by rw [List.length_nil, Nat.zero_add]; exact hlen)
        refine ⟨?_, ?_⟩
        · rw [encodeResource, hrun]
          exact if_neg (Nat.not_lt.mpr (Nat.le_of_lt hlen))
        · refine List.map_congr_left (fun r hr => ?_) |>.trans (List.map_id records)
          exact canonical_of_fits (hfree r hr) (hfits r hr)
  · have hproper : ∀ r ∈ records, ∀ name ∈ r.names, Proper name := by
      intro r hr name hname
      rw [hfree r hr] at hname
      cases hname
    rcases decodeResource_written laws hproper henc.1 with hdec | ⟨hfull, -⟩
    · rw [hdec, henc.2]
    · omega

/-! ## What the import takes from a resource -/

def ResourceRecord.toProtocol : ResourceRecord → Protocol.Record
  | .txt entries => .txt entries
  | _ => .other

def ResourceRecord.entries : ResourceRecord → List Bytes
  | .txt entries => entries
  | _ => []

variable {K : Type}

def resourceSource (dn : DomainNames M) (src : Source K) : Source K :=
  { src with
    decodeResource := fun b =>
      match decodeResource dn b with
      | some (.ok records) => some (records.map ResourceRecord.toProtocol)
      | _ => none }

theorem keysOf_toProtocol (src : Source K) (r : ResourceRecord) :
    Protocol.keysOf src r.toProtocol = r.entries.filterMap (Protocol.entryKey src) := by
  cases r <;> rfl

/-- The keys in the text of a resource, in order. -/
def textKeys (src : Source K) (records : List ResourceRecord) : List K :=
  (records.flatMap ResourceRecord.entries).filterMap (Protocol.entryKey src)

theorem validKeys_canonical (src : Source K) (records : List ResourceRecord) :
    Protocol.validKeys src ((records.map (·.canonical canonical)).map ResourceRecord.toProtocol) = textKeys src records := by
  have hkeys : ∀ r : ResourceRecord, Protocol.keysOf src (r.canonical canonical).toProtocol =
      r.entries.filterMap (Protocol.entryKey src) := by
    intro r
    rw [keysOf_toProtocol]
    cases r <;> rfl
  rw [Protocol.validKeys, List.map_map, List.flatMap_map, textKeys, List.filterMap_flatMap]
  simp only [Function.comp_apply, hkeys]

/-- A Register or Update with an encoded resource in its third item. -/
def Announces (dn : DomainNames M) (cov : Covenant) (nameHash : Bytes) (records : List ResourceRecord) : Prop :=
  ∃ height b rest, cov.items = nameHash :: height :: b :: rest ∧ 4 ≤ height.length ∧
    encodeResource dn records = .ok b ∧ b.length ≤ Protocol.maxResourceSize ∧
    (cov.type = Protocol.covenantUpdate ∨ cov.type = Protocol.covenantRegister ∧ rest ≠ [])

theorem Announces.resourceOf (laws : NameLaws dn Proper canonical Sound) (src : Source K) {cov : Covenant} {nameHash : Bytes}
    {records : List ResourceRecord} (h : Announces dn cov nameHash records)
    (hnames : ∀ record ∈ records, ∀ name ∈ record.names, Proper name) :
    Protocol.resourceOf (resourceSource dn src) cov =
      some (nameHash, (records.map (·.canonical canonical)).map ResourceRecord.toProtocol) := by
  obtain ⟨height, b, rest, hitems, hheight, henc, hlen, htype⟩ := h
  have hdec : decodeResource dn b = some (.ok (records.map (·.canonical canonical))) := by
    rcases decodeResource_written laws hnames henc with hdec | ⟨hfull, -⟩
    · exact hdec
    · rw [hfull] at hlen
      exact absurd hlen (by decide)
  have hpos : 0 < b.length := by
    refine List.length_pos_iff.mpr fun hnil => ?_
    rw [hnil] at hdec
    cases hdec
  simp only [Protocol.resourceOf, hitems]
  rw [if_pos ⟨htype, hheight, hpos, hlen⟩]
  simp only [resourceSource, hdec, Option.map_some]

/-- What the code takes from such an output: the name's last text entry that is a key. Unless a
    later output of the block has a record for the name, it is the one that is imported. -/
theorem covenant_gives_last_key (laws : NameLaws dn Proper canonical Sound) (src : Source K) {cov : Covenant} {nameHash : Bytes}
    {records : List ResourceRecord} (hcov : Announces dn cov nameHash records)
    (hnames : ∀ record ∈ records, ∀ name ∈ record.names, Proper name) :
    Protocol.extractOutput (resourceSource dn src) ⟨cov⟩ =
      .ok ((textKeys src records).getLast?.map (FNRecord.mk nameHash)).toList ∧
    ∀ (block : Protocol.Block) before after recs key, block.outputs = before ++ ⟨cov⟩ :: after →
      Protocol.extractTXTRecordsBlock (resourceSource dn src) block = .ok recs →
      (∀ vOut ∈ after, ∀ found, Protocol.extractOutput (resourceSource dn src) vOut = .ok found →
        ∀ rec ∈ found, rec.nameHash ≠ nameHash) →
      (textKeys src records).getLast? = some key → ⟨nameHash, key⟩ ∈ recs := by
  have hresource := hcov.resourceOf laws src hnames
  have hone : Protocol.extractOutput (resourceSource dn src) ⟨cov⟩ =
      .ok ((textKeys src records).getLast?.map (FNRecord.mk nameHash)).toList := by
    rw [Protocol.extractOutput_eq fun hpanic => by cases (Protocol.covenantOf_of_resourceOf hresource).symm.trans hpanic]
    simp only [Protocol.qualifying, hresource, validKeys_canonical]
    rfl
  refine ⟨hone, fun block before after recs key houtputs hrecs hafter hkey => ?_⟩
  rw [hkey] at hone
  exact Protocol.mem_of_last_output hrecs houtputs hone hafter

end

/-! ## Samples -/

def ns1foo : Bytes := [0x6e, 0x73, 0x31, 0x2e, 0x66, 0x6f, 0x6f, 0x2e]

def ns2foo : Bytes := [0x6e, 0x73, 0x32, 0x2e, 0x66, 0x6f, 0x6f, 0x2e]

/-- Two servers of one domain, one of them named twice, and a key among other text. -/
def sampleResource : List ResourceRecord :=
  [.ns ns1foo, .glue4 ns2foo [10, 0, 0, 1], .ns ns1foo, .txt [[104, 105], 0x66 :: List.replicate 44 0x41, [104]]]

/-- The domain stands at 6, the first server at 2. -/
def sampleBytes : Bytes :=
  [0, 1, 3, 0x6e, 0x73, 0x31, 3, 0x66, 0x6f, 0x6f, 0, 2, 3, 0x6e, 0x73, 0x32, 0xc0, 6, 10, 0, 0, 1, 1, 0xc0, 2,
    6, 3, 2, 104, 105, 45, 0x66] ++ List.replicate 44 0x41 ++ [1, 104]

theorem encode_sampleResource : encodeResource fqdn sampleResource = .ok sampleBytes := by decide +kernel

theorem fqdn_sampleResource : ∀ record ∈ sampleResource, ∀ name ∈ record.names, Fqdn name := by
  have hlabels : ∀ l : Bytes, l.length = 3 → ProperLabels [l, [0x66, 0x6f, 0x6f]] := by
    intro l hl
    refine ⟨fun l' hl' => ?_, by simp [octets, hl, maxDomainNameWireOctets], show 2 ≤ 126 by decide⟩
    rcases List.mem_pair.mp hl' with rfl | rfl
    · exact ⟨List.ne_nil_of_length_pos (by omega), by omega⟩
    · decide
  have h1 : Fqdn ns1foo := ⟨_, rfl, .inr ⟨by decide, hlabels _ rfl⟩⟩
  have h2 : Fqdn ns2foo := ⟨_, rfl, .inr ⟨by decide, hlabels _ rfl⟩⟩
  simp only [sampleResource, List.forall_mem_cons, ResourceRecord.names]
  simp [h1, h2]

/-- Four entries of 255 bytes end three bytes beyond the buffer. -/
example : (encodeResource fqdn [.txt (List.replicate 4 (List.replicate 255 0))]).toOption.map
    (fun b => (b.length, decodeResource fqdn b)) = some (1024, some (.error (.err .unexpectedEOF))) := by
  decide +kernel

/-- A name without its last dot is refused, and nothing is written for the empty one. -/
example : encodeResource fqdn [.ns (ns1foo.take 7)] = .error (.err .domainName) ∧ encodeResource fqdn [.ns []] = .ok [0, 1] := by
  decide +kernel

theorem text_is_read_exactly :
    decodeResource fqdn [0, 6, 1, 2, 104, 105] = some (.ok [.txt [[104, 105]]]) :=
  (decode_iff_encode fqdn_laws (by decide) (List.forall_mem_singleton.mpr rfl)).mpr ⟨by decide +kernel, rfl⟩

/-- A key is its first character. -/
def headSource : Source UInt8 := ⟨fun _ => ⟨[]⟩, fun _ => none, some, List.head?, id⟩

theorem an_update_gives_its_key :
    Protocol.extractOutput (resourceSource fqdn headSource) ⟨⟨Protocol.covenantUpdate, [[7], [0, 0, 0, 1], sampleBytes]⟩⟩ =
      .ok [⟨[7], 0x41⟩] :=
  (covenant_gives_last_key fqdn_laws headSource
    ⟨_, _, _, rfl, by decide, encode_sampleResource, by decide, .inl rfl⟩ fqdn_sampleResource).1

end Fnd.Chain
