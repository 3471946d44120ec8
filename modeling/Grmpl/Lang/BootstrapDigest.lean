import Grmpl.Core.WireCanonical
import Grmpl.Lang.Requirements
import Grmpl.Lib.OrdMap
import Grmpl.Lib.PrefixCode
import Mathlib.Data.Prod.Lex

/-!
# The bootstrap's digest

What a package installs is named by a digest of its bootstrap: its id and version, its
entity constants, the facts and the requirements, each in the order of their names. The
bytes that are hashed say all of it and nothing else.

* `PackageDecl`, `CompiledPackage`, `compilePackage`.
* `CompiledPackage.digestInput`: the bytes that are hashed.
* `Bootstrap`, `bootstrapOf`: what the declarations say, in whatever order.
* `digest_identifies`: the bytes of two packages against what they say.
-/

open Bytes

namespace Grmpl

theorem Entity.ext {a b : Entity} (h : a.id = b.id) : a = b := by
  cases a
  cases b
  exact congrArg _ h

namespace Wire

/-! ## Words of the wire -/

theorem counted_code : PrefixCode counted (fun bs => bs.length < 2 ^ 32) := by
  have hbyte : PrefixCode (fun b : UInt8 => [b]) (fun _ => True) :=
    PrefixCode.fixed (fun _ _ => rfl) fun a b _ _ h => List.head_eq_of_cons_eq h
  have hlist := (hbyte.list 4).mono fun (bs : List UInt8) (h : bs.length < 2 ^ 32) => ⟨h, fun _ _ => trivial⟩
  have heq : (fun bs : List UInt8 => toBE 4 bs.length ++ bs.flatMap fun b => [b]) = counted := by
    funext bs
    rw [List.flatMap_singleton', counted]
  rwa [heq] at hlist

/-- The bytes of a text. -/
def utf8 (s : String) : List UInt8 := s.toByteArray.data.toList

theorem utf8_inj {s s' : String} (h : utf8 s = utf8 s') : s = s' := by
  have hs := fromUTF8?_toByteArray s
  rw [show s.toByteArray.data.toList = s'.toByteArray.data.toList from h, fromUTF8?_toByteArray] at hs
  exact (Option.some.inj hs).symm

theorem text_code : PrefixCode (fun s => counted (utf8 s)) (fun s => (utf8 s).length < 2 ^ 32) :=
  counted_code.comap (fun _ _ _ _ h => utf8_inj h) fun _ h => h

theorem u64_code : PrefixCode (fun n : UInt64 => toBE 8 n.toNat) (fun _ => True) :=
  PrefixCode.fixed (fun _ _ => length_toBE _ _) fun _ _ _ _ h => toBE_inj h

theorem i64_code : PrefixCode (fun n : Int64 => toBE 8 n.toUInt64.toNat) (fun _ => True) :=
  u64_code.comap (fun a b _ _ h => by simpa using congrArg UInt64.toInt64 h) fun _ _ => trivial

theorem u32_code : PrefixCode (fun n : UInt32 => toBE 4 n.toNat) (fun _ => True) :=
  (PrefixCode.toBE 4).comap (fun _ _ _ _ h => UInt32.toNat_inj.1 h) fun n _ => n.toNat_lt

theorem encodeCells_eq (cells : List Value) : encodeCells cells = cells.flatMap encodeValue := by
  induction cells with
  | nil => rfl
  | cons c cells ih => rw [encodeCells, ih, List.flatMap_cons]

theorem encodeValue_ne_nil (v : Value) : 0 < (encodeValue v).length := by
  cases v <;> simp [encodeValue]

/-- No cell is longer than the cells together, and there are no more of them than bytes. -/
theorem length_encodeCells {cells : List Value} : cells.length ≤ (encodeCells cells).length ∧
    ∀ c ∈ cells, (encodeValue c).length ≤ (encodeCells cells).length := by
  induction cells with
  | nil => exact ⟨le_rfl, nofun⟩
  | cons c cells ih =>
    have hc := encodeValue_ne_nil c
    rw [encodeCells, List.length_append, List.length_cons]
    refine ⟨by omega, List.forall_mem_cons.2 ⟨by omega, fun c' hc' => ?_⟩⟩
    have := ih.2 c' hc'
    omega

/-- What is counted in four bytes. -/
abbrev Short (v : Value) : Prop := (encodeValue v).length < 2 ^ 32

/-- Cells behind their number, short together. -/
abbrev ShortCells (cells : List Value) : Prop := (toBE 4 cells.length ++ encodeCells cells).length < 2 ^ 32

theorem ShortCells.parts {cells : List Value} (h : ShortCells cells) :
    cells.length < 2 ^ 32 ∧ ∀ c ∈ cells, Short c := by
  rw [ShortCells, List.length_append, length_toBE] at h
  obtain ⟨hnum, hlen⟩ := @length_encodeCells cells
  exact ⟨by omega, fun c hc => lt_of_le_of_lt (hlen c hc) (by omega)⟩

theorem cells_delimit {cells : List Value} (hcells : ∀ c ∈ cells, Short c → Delimits encodeValue Short c)
    (hshort : ShortCells cells) :
    Delimits (fun cells => toBE 4 cells.length ++ encodeCells cells) ShortCells cells := by
  intro cells' hshort' x y h
  simp only [encodeCells_eq] at h
  obtain ⟨hnum, hall⟩ := hshort.parts
  exact list_delimits hnum (fun c hc => hcells c hc (hall c hc)) cells' hshort'.parts x y h

def tag : Value → UInt8
  | .ent _ => tagEnt
  | .int _ => tagInt
  | .float _ => tagFloat
  | .text _ => tagText
  | .bool _ => tagBool
  | .tuple _ => tagTuple
  | .bytes _ => tagBytes
  | .code _ => tagCode

/-- What stands behind the tag of a value. -/
def body : Value → List UInt8
  | .ent e => toBE 8 e.id.toNat
  | .int i => toBE 8 i.toUInt64.toNat
  | .float x => toBE 8 x.bits.toNat
  | .text s => counted (utf8 s)
  | .bool b => [if b then 1 else 0]
  | .tuple cells => toBE 4 cells.length ++ encodeCells cells
  | .bytes b => counted b
  | .code b => counted b

theorem encodeValue_eq (v : Value) : encodeValue v = tag v :: body v := by
  cases v <;> rfl

theorem rank_of_tag (v : Value) : [0, 1, 3, 4, 5, 6, 7, 2][(tag v).toNat - 1]? = some v.rank := by
  cases v <;> rfl

theorem rank_eq {v w : Value} (h : tag v = tag w) : v.rank = w.rank :=
  Option.some.inj (by rw [← rank_of_tag, h, rank_of_tag])

/-- **The code of a short value is the start of no other's**, however deep it nests. -/
theorem encodeValue_delimits (v : Value) : Short v → Delimits encodeValue Short v := by
  induction v using Value.cellsInduction with
  | atom v hv =>
    intro hshort w hw x y h
    rw [Short, encodeValue_eq, List.length_cons] at hshort hw
    rw [encodeValue_eq, encodeValue_eq] at h
    obtain ⟨htag, hbody⟩ := List.cons_eq_cons.1 h
    have hrank := rank_eq htag
    cases v <;> cases w <;> try (simp [Value.rank] at hrank; done)
    case ent.ent e e' =>
      obtain ⟨hid, hxy⟩ := u64_code e.id trivial e'.id trivial _ _ hbody
      exact ⟨congrArg _ (Entity.ext hid), hxy⟩
    case int.int i i' =>
      obtain ⟨hi, hxy⟩ := i64_code i trivial i' trivial _ _ hbody
      exact ⟨congrArg _ hi, hxy⟩
    case float.float f f' =>
      obtain ⟨hbits, hxy⟩ := u64_code f.bits trivial f'.bits trivial _ _ hbody
      cases f
      cases f'
      subst hbits
      exact ⟨rfl, hxy⟩
    case text.text s s' =>
      obtain ⟨hs, hxy⟩ := text_code s (by simp [body, counted] at hshort; omega) s'
        (by simp [body, counted] at hw; omega) _ _ hbody
      exact ⟨congrArg _ hs, hxy⟩
    case bool.bool b b' =>
      cases b <;> cases b' <;> simp_all [body]
    case tuple.tuple cells _ => exact absurd rfl (hv cells)
    case bytes.bytes b b' =>
      obtain ⟨hb, hxy⟩ := counted_code b (by simp [body, counted] at hshort; omega) b'
        (by simp [body, counted] at hw; omega) _ _ hbody
      exact ⟨congrArg _ hb, hxy⟩
    case code.code b b' =>
      obtain ⟨hb, hxy⟩ := counted_code b (by simp [body, counted] at hshort; omega) b'
        (by simp [body, counted] at hw; omega) _ _ hbody
      exact ⟨congrArg _ hb, hxy⟩
  | tuple cells ih =>
    intro hshort w hw x y h
    rw [Short, encodeValue_eq, List.length_cons] at hshort hw
    rw [encodeValue_eq, encodeValue_eq] at h
    obtain ⟨htag, hbody⟩ := List.cons_eq_cons.1 h
    have hrank := rank_eq htag
    cases w <;> try (simp [Value.rank] at hrank; done)
    case tuple cells' =>
      obtain ⟨hcells, hxy⟩ := cells_delimit ih (Nat.lt_of_succ_lt hshort) cells' (Nat.lt_of_succ_lt hw) _ _ hbody
      exact ⟨congrArg _ hcells, hxy⟩

end Wire

/-! ## The package -/

/-- A declaration of a package source, as far as its bootstrap goes. -/
inductive PackageDecl where
  | package (id : String) (bootstrapVersion : UInt32)
  | entity (name : String) (id : Int64)
  | require (decl : RequireDecl)
  | bootstrap (facts : List (String × List BootstrapValue))
  | other

structure CompiledBootstrapFact where
  relationName : String
  /-- The relation's id in the store the package was compiled against. -/
  relation : RelId
  tuple : Tuple

/-- A fact as it is named, apart from the store. -/
def CompiledBootstrapFact.named (f : CompiledBootstrapFact) : String × Tuple := (f.relationName, f.tuple)

structure CompiledPackage where
  packageId : String
  bootstrapVersion : UInt32
  entities : Entities
  bootstrapFacts : List CompiledBootstrapFact
  requirements : List CapabilityRequirement

def packageHeader (decls : List PackageDecl) : Except String (String × UInt32) :=
  match decls.filterMap fun | .package id version => some (id, version) | _ => none with
  | [header] => .ok header
  | [] => .error "a loaded package requires exactly one `package` declaration"
  | _ => .error "a package source declares `package` more than once"

/-- Entity constants, by name: each name and each id is declared once. -/
def compileEntity (entities : Entities) : PackageDecl → Except String Entities
  | .entity name id =>
      if id < 0 then .error ("entity `" ++ name ++ "` has negative id " ++ toString id)
      else if (entities.get name).isSome then .error ("entity `" ++ name ++ "` is declared twice")
      else if entities.any fun e => e.2 = ⟨id.toUInt64⟩ then
        .error ("entity id " ++ toString id ++ " is declared twice")
      else .ok (OrdMap.put name ⟨id.toUInt64⟩ entities)
  | _ => .ok entities

def compileEntities (decls : List PackageDecl) : Except String Entities := decls.foldlM compileEntity []

/-- A requirement as the row of its fields behind its constructor: its derived order is
that of these rows. -/
def CapabilityRequirement.fields : CapabilityRequirement → Tuple
  | .allocate name counter first last => ⟨[.int 0, .text name, .text counter, .int first, .int last]⟩
  | .random name state owner algorithm => ⟨[.int 1, .text name, .text state, .ent owner, .text algorithm]⟩
  | .schedule name clock timers sequences =>
      ⟨[.int 2, .text name, .text clock, .text timers, .text sequences]⟩

theorem CapabilityRequirement.fields_inj {r r' : CapabilityRequirement} (h : r.fields = r'.fields) : r = r' := by
  cases r <;> cases r' <;> simp_all [CapabilityRequirement.fields]

def requireDecls (decls : List PackageDecl) : List RequireDecl :=
  decls.filterMap fun | .require decl => some decl | _ => none

def sortRequirements (requirements : List CapabilityRequirement) : List CapabilityRequirement :=
  requirements.insertionSort fun a b => a.fields ≤ b.fields

def bootstrapBlock (decls : List PackageDecl) : Except String (List (String × List BootstrapValue)) :=
  match decls.filterMap fun | .bootstrap facts => some facts | _ => none with
  | [facts] => .ok facts
  | [] => .error "a loaded package requires exactly one `bootstrap` block"
  | _ => .error "a package source declares `bootstrap` more than once"

/-- A bootstrap fact with the id of its relation. -/
def compiledFact (rels : List RelInfo) (f : String × Tuple) : Except String CompiledBootstrapFact :=
  match rels.find? fun r => r.name = f.1 with
  | some r => .ok ⟨f.1, r.id, f.2⟩
  | none => .error ("bootstrap names undeclared relation `" ++ f.1 ++ "`")

def sortFacts (facts : List CompiledBootstrapFact) : List CompiledBootstrapFact :=
  facts.insertionSort fun a b => toLex a.named ≤ toLex b.named

/-- A package compiled against the relations of its program, with the ids a store gave
them. -/
def compilePackage (rels : List RelInfo) (decls : List PackageDecl) : Except String CompiledPackage := do
  let schema := fun name => (rels.find? fun r => r.name = name).map fun r => (⟨r.columns⟩ : Schema)
  let header ← packageHeader decls
  let entities ← compileEntities decls
  let requirements ← compileRequirements entities (requireDecls decls)
  validateRequirements schema [] (sortRequirements requirements)
  let facts ← compileBootstrap schema entities [] (← bootstrapBlock decls)
  let compiled ← facts.mapM (compiledFact rels)
  validateResourceSeeds ((sortFacts compiled).map CompiledBootstrapFact.named) (sortRequirements requirements)
  return ⟨header.1, header.2, entities, sortFacts compiled, sortRequirements requirements⟩

/-! ## The digest -/

namespace CapabilityRequirement

open Wire

def encode : CapabilityRequirement → List UInt8
  | .allocate name counter first last =>
      0 :: (counted (utf8 name) ++ (counted (utf8 counter) ++
        (toBE 8 first.toUInt64.toNat ++ toBE 8 last.toUInt64.toNat)))
  | .random name state owner algorithm =>
      1 :: (counted (utf8 name) ++ (counted (utf8 state) ++
        (toBE 8 owner.id.toNat ++ counted (utf8 algorithm))))
  | .schedule name clock timers sequences =>
      2 :: (counted (utf8 name) ++ (counted (utf8 clock) ++
        (counted (utf8 timers) ++ counted (utf8 sequences))))

def texts : CapabilityRequirement → List String
  | .allocate name counter .. => [name, counter]
  | .random name state _ algorithm => [name, state, algorithm]
  | .schedule name clock timers sequences => [name, clock, timers, sequences]

end CapabilityRequirement

namespace CompiledPackage

open Wire

variable (p : CompiledPackage)

/-- The bytes that are hashed. -/
def digestInput : List UInt8 :=
  counted (utf8 "grmpl-package-bootstrap-v1") ++ (formatVersion :: (counted (utf8 p.packageId) ++
    (toBE 4 p.bootstrapVersion.toNat ++
      ((toBE 4 p.entities.length ++ p.entities.flatMap fun e => counted (utf8 e.1) ++ toBE 8 e.2.id.toNat) ++
        ((toBE 4 p.bootstrapFacts.length ++
            p.bootstrapFacts.flatMap fun f => counted (utf8 f.relationName) ++ counted (encodeTuple f.tuple)) ++
          (toBE 4 p.requirements.length ++ p.requirements.flatMap CapabilityRequirement.encode))))))

/-- Every length is counted in four bytes. -/
structure Counted : Prop where
  packageId : (utf8 p.packageId).length < 2 ^ 32
  entities : p.entities.length < 2 ^ 32
  entityNames : ∀ e ∈ p.entities, (utf8 e.1).length < 2 ^ 32
  facts : p.bootstrapFacts.length < 2 ^ 32
  relationNames : ∀ f ∈ p.bootstrapFacts, (utf8 f.relationName).length < 2 ^ 32
  tuples : ∀ f ∈ p.bootstrapFacts, (encodeTuple f.tuple).length < 2 ^ 32
  requirements : p.requirements.length < 2 ^ 32
  requirementTexts : ∀ r ∈ p.requirements, ∀ s ∈ r.texts, (utf8 s).length < 2 ^ 32

end CompiledPackage

/-! ### The bytes say all of it -/

namespace Wire

theorem entity_code : PrefixCode (fun e : String × Entity => counted (utf8 e.1) ++ toBE 8 e.2.id.toNat)
    (fun e => (utf8 e.1).length < 2 ^ 32) :=
  PrefixCode.seq (f := Prod.fst) (g := fun e : String × Entity => e.2.id) text_code u64_code
    (fun _ _ _ _ h h' => Prod.ext h (Entity.ext h')) (fun _ h => h) fun _ _ => trivial

theorem encodeTuple_inj {t t' : Tuple} (h : (encodeTuple t).length < 2 ^ 32)
    (h' : (encodeTuple t').length < 2 ^ 32) (heq : encodeTuple t = encodeTuple t') : t = t' := by
  have hcells := cells_delimit (fun c _ => encodeValue_delimits c) h t'.cells h' [] []
    (congrArg (· ++ []) heq)
  cases t
  cases t'
  exact congrArg _ hcells.1

theorem fact_code : PrefixCode (fun f : String × Tuple => counted (utf8 f.1) ++ counted (encodeTuple f.2))
    (fun f => (utf8 f.1).length < 2 ^ 32 ∧ (encodeTuple f.2).length < 2 ^ 32) := by
  have htuple : PrefixCode (fun t => counted (encodeTuple t)) (fun t => (encodeTuple t).length < 2 ^ 32) :=
    counted_code.comap (fun _ _ h h' heq => encodeTuple_inj h h' heq) fun _ h => h
  exact PrefixCode.seq (f := Prod.fst) (g := Prod.snd) (d := fun t => counted (encodeTuple t)) text_code htuple
    (fun _ _ _ _ h h' => Prod.ext h h') (fun _ h => h.1) fun _ h => h.2

theorem requirement_code : PrefixCode CapabilityRequirement.encode
    (fun r => ∀ s ∈ r.texts, (utf8 s).length < 2 ^ 32) := by
  intro r hr r' hr' x y h
  cases r <;> cases r' <;> try (simp [CapabilityRequirement.encode] at h; done)
  all_goals
    simp only [CapabilityRequirement.texts, List.forall_mem_cons] at hr hr'
    simp only [CapabilityRequirement.encode, List.cons_append, List.cons.injEq, true_and, List.append_assoc] at h
  case allocate.allocate name counter first last name' counter' first' last' =>
    obtain ⟨rfl, h₁⟩ := text_code _ hr.1 _ hr'.1 _ _ h
    obtain ⟨rfl, h₂⟩ := text_code _ hr.2.1 _ hr'.2.1 _ _ h₁
    obtain ⟨rfl, h₃⟩ := i64_code first trivial first' trivial _ _ h₂
    obtain ⟨rfl, h₄⟩ := i64_code last trivial last' trivial _ _ h₃
    exact ⟨rfl, h₄⟩
  case random.random name state owner algorithm name' state' owner' algorithm' =>
    obtain ⟨rfl, h₁⟩ := text_code _ hr.1 _ hr'.1 _ _ h
    obtain ⟨rfl, h₂⟩ := text_code _ hr.2.1 _ hr'.2.1 _ _ h₁
    obtain ⟨hid, h₃⟩ := u64_code owner.id trivial owner'.id trivial _ _ h₂
    obtain ⟨rfl, h₄⟩ := text_code _ hr.2.2.1 _ hr'.2.2.1 _ _ h₃
    obtain rfl := Entity.ext hid
    exact ⟨rfl, h₄⟩
  case schedule.schedule name clock timers sequences name' clock' timers' sequences' =>
    obtain ⟨rfl, h₁⟩ := text_code _ hr.1 _ hr'.1 _ _ h
    obtain ⟨rfl, h₂⟩ := text_code _ hr.2.1 _ hr'.2.1 _ _ h₁
    obtain ⟨rfl, h₃⟩ := text_code _ hr.2.2.1 _ hr'.2.2.1 _ _ h₂
    obtain ⟨rfl, h₄⟩ := text_code _ hr.2.2.2.1 _ hr'.2.2.2.1 _ _ h₃
    exact ⟨rfl, h₄⟩

end Wire

namespace CompiledPackage

open Wire

/-- What two packages whose bytes agree have in common: all but the relations' ids. -/
structure Agree (p q : CompiledPackage) : Prop where
  packageId : p.packageId = q.packageId
  bootstrapVersion : p.bootstrapVersion = q.bootstrapVersion
  entities : p.entities = q.entities
  facts : p.bootstrapFacts.map CompiledBootstrapFact.named = q.bootstrapFacts.map CompiledBootstrapFact.named
  requirements : p.requirements = q.requirements

theorem digestInput_named (p : CompiledPackage) : p.digestInput =
    counted (utf8 "grmpl-package-bootstrap-v1") ++ (formatVersion :: (counted (utf8 p.packageId) ++
      (toBE 4 p.bootstrapVersion.toNat ++
        ((toBE 4 p.entities.length ++ p.entities.flatMap fun e => counted (utf8 e.1) ++ toBE 8 e.2.id.toNat) ++
          ((toBE 4 (p.bootstrapFacts.map CompiledBootstrapFact.named).length ++
              (p.bootstrapFacts.map CompiledBootstrapFact.named).flatMap fun f =>
                counted (utf8 f.1) ++ counted (encodeTuple f.2)) ++
            (toBE 4 p.requirements.length ++ p.requirements.flatMap CapabilityRequirement.encode)))))) := by
  rw [digestInput, List.length_map, List.flatMap_map]
  rfl

/-- **The bytes are those of everything but the ids.** -/
theorem digestInput_iff {p q : CompiledPackage} (hp : p.Counted) (hq : q.Counted) :
    p.digestInput = q.digestInput ↔ Agree p q := by
  constructor
  · intro h
    rw [digestInput_named, digestInput_named] at h
    have h := List.append_cancel_left h
    simp only [List.cons.injEq, true_and] at h
    obtain ⟨hid, h⟩ := text_code _ hp.packageId _ hq.packageId _ _ h
    obtain ⟨hversion, h⟩ := u32_code p.bootstrapVersion trivial q.bootstrapVersion trivial _ _ h
    obtain ⟨hentities, h⟩ := (entity_code.list 4) p.entities ⟨hp.entities, hp.entityNames⟩
      q.entities ⟨hq.entities, hq.entityNames⟩ _ _ h
    obtain ⟨hfacts, h⟩ := (fact_code.list 4) (p.bootstrapFacts.map CompiledBootstrapFact.named)
      ⟨by rw [List.length_map]; exact hp.facts,
        List.forall_mem_map.2 fun f hf => ⟨hp.relationNames f hf, hp.tuples f hf⟩⟩
      (q.bootstrapFacts.map CompiledBootstrapFact.named)
      ⟨by rw [List.length_map]; exact hq.facts,
        List.forall_mem_map.2 fun f hf => ⟨hq.relationNames f hf, hq.tuples f hf⟩⟩ _ _ h
    obtain ⟨hrequirements, -⟩ := (requirement_code.list 4) p.requirements ⟨hp.requirements, hp.requirementTexts⟩
      q.requirements ⟨hq.requirements, hq.requirementTexts⟩ [] [] (by simpa using h)
    exact ⟨hid, hversion, hentities, hfacts, hrequirements⟩
  · intro h
    rw [digestInput_named, digestInput_named, h.packageId, h.bootstrapVersion, h.entities, h.facts,
      h.requirements]

end CompiledPackage

/-! ## What a package says -/

/-- A value as it is written, its constants named. -/
inductive BootstrapValue.Means (entities : Set (String × Entity)) : BootstrapValue → Value → Prop
  | entity {name : String} {e : Entity} : (name, e) ∈ entities → Means entities (.entity name) (.ent e)
  | int (n : Int64) : Means entities (.int n) (.int n)
  | float (x : FiniteF64) : Means entities (.float x) (.float x)
  | text (s : String) : Means entities (.text s) (.text s)
  | bool (b : Bool) : Means entities (.bool b) (.bool b)
  | tuple {values : List BootstrapValue} {cells : List Value} : List.Forall₂ (Means entities) values cells →
      Means entities (.tuple values) (.tuple cells)

/-- A requirement as it is written, its owner named. -/
inductive RequireDecl.Asks (entities : Set (String × Entity)) : RequireDecl → CapabilityRequirement → Prop
  | allocate (name counter : String) (first last : Int64) :
      Asks entities (.allocate name counter first last) (.allocate name counter first last)
  | random {owner : String} {e : Entity} (name state algorithm : String) : (owner, e) ∈ entities →
      Asks entities (.random name state owner algorithm) (.random name state e algorithm)
  | schedule (name clock timers sequences : String) :
      Asks entities (.schedule name clock timers sequences) (.schedule name clock timers sequences)

/-- What a package installs: nothing in it is ordered, and relations are named. -/
@[ext] structure Bootstrap where
  header : Set (String × UInt32)
  entities : Set (String × Entity)
  facts : Set (String × Tuple)
  requirements : Set CapabilityRequirement

def declaredEntities (decls : List PackageDecl) : Set (String × Entity) :=
  {e | ∃ id, PackageDecl.entity e.1 id ∈ decls ∧ e.2 = ⟨id.toUInt64⟩}

def bootstrapOf (decls : List PackageDecl) : Bootstrap where
  header := {h | PackageDecl.package h.1 h.2 ∈ decls}
  entities := declaredEntities decls
  facts := {f | ∃ block values, PackageDecl.bootstrap block ∈ decls ∧ (f.1, values) ∈ block ∧
    List.Forall₂ (BootstrapValue.Means (declaredEntities decls)) values f.2.cells}
  requirements := {r | ∃ decl, PackageDecl.require decl ∈ decls ∧ decl.Asks (declaredEntities decls) r}

section Lowering

variable {entities : Entities} {E : Set (String × Entity)}

mutual

theorem lowerBootstrapValue_iff (hE : ∀ name e, entities.get name = some e ↔ (name, e) ∈ E) :
    ∀ (v : BootstrapValue) (w : Value), lowerBootstrapValue entities v = .ok w ↔ v.Means E w
  | .entity name, w => by
      rw [lowerBootstrapValue]
      constructor
      · intro h
        split at h
        · rename_i e he
          cases h
          exact .entity ((hE _ _).1 he)
        · cases h
      · rintro ⟨h⟩
        rw [(hE _ _).2 h]
  | .int n, w => ⟨fun h => by cases h; exact .int n, fun h => by cases h; rfl⟩
  | .float x, w => ⟨fun h => by cases h; exact .float x, fun h => by cases h; rfl⟩
  | .text s, w => ⟨fun h => by cases h; exact .text s, fun h => by cases h; rfl⟩
  | .bool b, w => ⟨fun h => by cases h; exact .bool b, fun h => by cases h; rfl⟩
  | .tuple values, w => by
      rw [lowerBootstrapValue]
      constructor
      · intro h
        obtain ⟨cells, hcells, h⟩ := bind_ok h
        cases h
        exact .tuple ((lowerBootstrapValues_iff hE values cells).1 hcells)
      · intro h
        cases h with
        | tuple h =>
          rw [(lowerBootstrapValues_iff hE values _).2 h]
          rfl

theorem lowerBootstrapValues_iff (hE : ∀ name e, entities.get name = some e ↔ (name, e) ∈ E) :
    ∀ (vs : List BootstrapValue) (ws : List Value), lowerBootstrapValues entities vs = .ok ws ↔ List.Forall₂ (BootstrapValue.Means E) vs ws
  | [], ws => by
      rw [lowerBootstrapValues, List.forall₂_nil_left_iff]
      exact ⟨fun h => by cases h; rfl, fun h => by rw [h]⟩
  | v :: vs, ws => by
      rw [lowerBootstrapValues]
      constructor
      · intro h
        obtain ⟨w, hw, h⟩ := bind_ok h
        obtain ⟨ws, hws, h⟩ := bind_ok h
        cases h
        exact .cons ((lowerBootstrapValue_iff hE v w).1 hw) ((lowerBootstrapValues_iff hE vs ws).1 hws)
      · intro h
        cases h with
        | cons hw hws =>
          rw [(lowerBootstrapValue_iff hE v _).2 hw, (lowerBootstrapValues_iff hE vs _).2 hws]
          rfl

end

end Lowering

/-! ### The compiled package says what its declarations say -/

section Compiled

variable {rels : List RelInfo} {decls : List PackageDecl} {p : CompiledPackage}

theorem mem_requireDecls {decl : RequireDecl} : decl ∈ requireDecls decls ↔ PackageDecl.require decl ∈ decls := by
  rw [requireDecls, List.mem_filterMap]
  constructor
  · rintro ⟨d, hd, h⟩
    cases d <;> cases h
    exact hd
  · exact fun h => ⟨_, h, rfl⟩

theorem packageHeader_iff {header : String × UInt32} (h : packageHeader decls = .ok header) (id : String)
    (version : UInt32) : PackageDecl.package id version ∈ decls ↔ (id, version) = header := by
  have hmem : PackageDecl.package id version ∈ decls ↔ (id, version) ∈
      decls.filterMap fun | .package id version => some (id, version) | _ => none := by
    rw [List.mem_filterMap]
    constructor
    · exact fun h => ⟨_, h, rfl⟩
    · rintro ⟨d, hd, h⟩
      cases d <;> cases h
      exact hd
  unfold packageHeader at h
  rw [hmem]
  split at h
  · rename_i header' heq
    cases h
    rw [heq, List.mem_singleton]
  · cases h
  · cases h

theorem bootstrapBlock_iff {facts : List (String × List BootstrapValue)} (h : bootstrapBlock decls = .ok facts)
    (block : List (String × List BootstrapValue)) : PackageDecl.bootstrap block ∈ decls ↔ block = facts := by
  have hmem : PackageDecl.bootstrap block ∈ decls ↔ block ∈
      decls.filterMap fun | .bootstrap facts => some facts | _ => none := by
    rw [List.mem_filterMap]
    constructor
    · exact fun h => ⟨_, h, rfl⟩
    · rintro ⟨d, hd, h⟩
      cases d <;> cases h
      exact hd
  unfold bootstrapBlock at h
  rw [hmem]
  split at h
  · rename_i facts' heq
    cases h
    rw [heq, List.mem_singleton]
  · cases h
  · cases h

/-- Constants so far: in order of their names, and those of the declarations seen. -/
structure Constants (seen : List PackageDecl) (entities : Entities) : Prop where
  sorted : OrdMap.Sorted entities
  mem : ∀ e, e ∈ entities ↔ e ∈ declaredEntities seen

theorem compileEntity_constants {seen : List PackageDecl} {entities out : Entities} {d : PackageDecl}
    (hc : Constants seen entities) (h : compileEntity entities d = .ok out) : Constants (seen ++ [d]) out := by
  have hother : (∀ name id, d ≠ .entity name id) → Constants (seen ++ [d]) entities := by
    intro hd
    refine ⟨hc.sorted, fun e => (hc.mem e).trans ?_⟩
    simp only [declaredEntities, Set.mem_ofPred_eq, List.mem_append, List.mem_singleton, (hd _ _).symm, or_false]
  cases d with
  | entity name id =>
    dsimp only [compileEntity] at h
    split_ifs at h with hneg htaken hid
    cases h
    have hfresh : ∀ e ∈ entities, e.1 ≠ name := by
      rintro e he rfl
      have hget : entities.get e.1 = some e.2 := OrdMap.lookup_of_mem hc.sorted he
      exact htaken (by rw [hget]; rfl)
    refine ⟨OrdMap.sorted_put hc.sorted, fun e => ?_⟩
    rw [OrdMap.mem_put_iff, hc.mem]
    constructor
    · rintro (rfl | ⟨⟨id', hdecl, he⟩, -⟩)
      · exact ⟨id, List.mem_append_right _ (List.mem_singleton_self _), rfl⟩
      · exact ⟨id', List.mem_append_left _ hdecl, he⟩
    · rintro ⟨id', hdecl, he⟩
      rcases List.mem_append.1 hdecl with hdecl | hdecl
      · exact .inr ⟨⟨id', hdecl, he⟩, hfresh e ((hc.mem e).2 ⟨id', hdecl, he⟩)⟩
      · cases List.mem_singleton.1 hdecl
        exact .inl (Prod.ext rfl he)
  | package id version => cases h; exact hother (by simp)
  | require decl => cases h; exact hother (by simp)
  | bootstrap facts => cases h; exact hother (by simp)
  | other => cases h; exact hother (by simp)

theorem compileEntities_constants {entities : Entities} (h : compileEntities decls = .ok entities) :
    Constants decls entities := by
  have hfold : ∀ (rest seen : List PackageDecl) (entities out : Entities), Constants seen entities →
      rest.foldlM compileEntity entities = .ok out → Constants (seen ++ rest) out := by
    intro rest
    induction rest with
    | nil =>
      intro seen entities out hc h
      cases h
      rwa [List.append_nil]
    | cons d rest ih =>
      intro seen entities out hc h
      rw [List.foldlM_cons] at h
      obtain ⟨mid, hmid, h⟩ := bind_ok h
      have hnext := ih _ _ _ (compileEntity_constants hc hmid) h
      rwa [List.append_assoc, List.singleton_append] at hnext
  have hnil : Constants [] [] := ⟨List.Pairwise.nil, fun e => ⟨nofun, fun ⟨_, h, _⟩ => nomatch h⟩⟩
  exact hfold decls [] [] entities hnil h

theorem Constants.get_iff {entities : Entities} (h : Constants decls entities) (name : String) (e : Entity) :
    entities.get name = some e ↔ (name, e) ∈ declaredEntities decls := by
  rw [← h.mem]
  exact ⟨OrdMap.mem_of_lookup, OrdMap.lookup_of_mem h.sorted⟩

/-! ### Requirements and facts -/

variable {entities : Entities} {E : Set (String × Entity)}

theorem compileRequirement_asks (hE : ∀ name e, entities.get name = some e ↔ (name, e) ∈ E) {r r' : Requiring}
    {decl : RequireDecl} (h : compileRequirement entities r decl = .ok r') (y : CapabilityRequirement) :
    y ∈ r'.requirements ↔ y ∈ r.requirements ∨ decl.Asks E y := by
  have hadd : ∀ {x : CapabilityRequirement}, r'.requirements = r.requirements ++ [x] →
      (decl.Asks E y ↔ y = x) → (y ∈ r'.requirements ↔ y ∈ r.requirements ∨ decl.Asks E y) := by
    intro x hx hasks
    rw [hx, hasks, List.mem_append, List.mem_singleton]
  unfold compileRequirement at h
  obtain ⟨⟨x, ranges⟩, hx, h⟩ := bind_ok h
  dsimp only at h
  split_ifs at h with hname
  cases h
  refine hadd rfl ?_
  cases decl with
  | allocate name counter first last =>
    dsimp only at hx
    split_ifs at hx
    cases hx
    exact ⟨fun h => by cases h; rfl, fun h => h ▸ .allocate name counter first last⟩
  | random name state owner algorithm =>
    dsimp only at hx
    split at hx
    · cases hx
    · rename_i e he
      cases hx
      refine ⟨?_, fun h => h ▸ .random name state algorithm ((hE _ _).1 he)⟩
      rintro ⟨⟩
      rename_i e' hmem
      rw [Option.some.inj (he.symm.trans ((hE _ _).2 hmem))]
  | schedule name clock timers sequences =>
    cases hx
    exact ⟨fun h => by cases h; rfl, fun h => h ▸ .schedule name clock timers sequences⟩

theorem compileRequirements_asks (hE : ∀ name e, entities.get name = some e ↔ (name, e) ∈ E)
    {requires : List RequireDecl} {out : List CapabilityRequirement}
    (h : compileRequirements entities requires = .ok out) (y : CapabilityRequirement) :
    y ∈ out ↔ ∃ decl ∈ requires, decl.Asks E y := by
  have hfold : ∀ (requires : List RequireDecl) (r r' : Requiring),
      requires.foldlM (compileRequirement entities) r = .ok r' →
      (y ∈ r'.requirements ↔ y ∈ r.requirements ∨ ∃ decl ∈ requires, decl.Asks E y) := by
    intro requires
    induction requires with
    | nil =>
      intro r r' h
      cases h
      simp
    | cons decl requires ih =>
      intro r r' h
      rw [List.foldlM_cons] at h
      obtain ⟨mid, hmid, h⟩ := bind_ok h
      rw [ih mid r' h, compileRequirement_asks hE hmid, or_assoc, List.exists_mem_cons_iff]
  unfold compileRequirements at h
  cases hres : requires.foldlM (compileRequirement entities) ⟨[], []⟩ with
  | error e =>
    rw [hres] at h
    cases h
  | ok r =>
    rw [hres] at h
    cases h
    simpa using hfold requires _ _ hres

theorem compileBootstrap_means (hE : ∀ name e, entities.get name = some e ↔ (name, e) ∈ E)
    {schema : String → Option Schema} : ∀ {source : List (String × List BootstrapValue)}
      {facts out : List (String × Tuple)}, compileBootstrap schema entities facts source = .ok out →
      ∀ f, f ∈ out ↔ f ∈ facts ∨ ∃ values, (f.1, values) ∈ source ∧
        List.Forall₂ (BootstrapValue.Means E) values f.2.cells := by
  intro source
  induction source with
  | nil =>
    intro facts out h f
    cases h
    simp
  | cons fact source ih =>
    obtain ⟨rel, values⟩ := fact
    intro facts out h f
    unfold compileBootstrap at h
    split_ifs at h with hmarker
    split at h
    · cases h
    obtain ⟨cells, hcells, h⟩ := bind_ok h
    split at h
    · cases h
    split_ifs at h with hdup
    have hmeans := (lowerBootstrapValues_iff hE values cells).1 hcells
    -- what the values mean is one row: it is the one that was lowered
    have hone : f ∈ [(rel, (⟨cells⟩ : Tuple))] ↔
        f.1 = rel ∧ List.Forall₂ (BootstrapValue.Means E) values f.2.cells := by
      rw [List.mem_singleton]
      refine ⟨fun hf => hf ▸ ⟨rfl, hmeans⟩, fun hboth => Prod.ext hboth.1 ?_⟩
      have heq := (lowerBootstrapValues_iff hE values _).2 hboth.2
      rw [hcells] at heq
      exact congrArg Tuple.mk (Except.ok.inj heq).symm
    rw [ih h f, List.mem_append, hone, or_assoc]
    refine or_congr Iff.rfl ⟨?_, ?_⟩
    · rintro (⟨rfl, hf⟩ | ⟨vs, hvs, hf⟩)
      · exact ⟨values, List.mem_cons_self, hf⟩
      · exact ⟨vs, List.mem_cons_of_mem _ hvs, hf⟩
    · rintro ⟨vs, hvs, hf⟩
      rcases List.mem_cons.1 hvs with heq | hvs
      · cases heq
        exact .inl ⟨rfl, hf⟩
      · exact .inr ⟨vs, hvs, hf⟩

theorem compiledFacts_named {rels : List RelInfo} : ∀ {facts : List (String × Tuple)}
    {compiled : List CompiledBootstrapFact}, facts.mapM (compiledFact rels) = .ok compiled →
      compiled.map CompiledBootstrapFact.named = facts := by
  intro facts
  induction facts with
  | nil =>
    intro compiled h
    cases h
    rfl
  | cons f facts ih =>
    intro compiled h
    rw [List.mapM_cons] at h
    obtain ⟨c, hc, h⟩ := bind_ok h
    obtain ⟨cs, hcs, h⟩ := bind_ok h
    cases h
    unfold compiledFact at hc
    split at hc
    · cases hc
      rw [List.map_cons, ih hcs]
      rfl
    · cases hc

/-- The content of a compiled package, each part in the order of its names. -/
structure Canonical (b : Bootstrap) (p : CompiledPackage) : Prop where
  header : b.header = {(p.packageId, p.bootstrapVersion)}
  entities_sorted : p.entities.Pairwise fun a b => a.1 < b.1
  entities : ∀ e, e ∈ p.entities ↔ e ∈ b.entities
  facts_sorted : (p.bootstrapFacts.map CompiledBootstrapFact.named).Pairwise fun a b => toLex a < toLex b
  facts : ∀ f, f ∈ p.bootstrapFacts.map CompiledBootstrapFact.named ↔ f ∈ b.facts
  requirements_sorted : p.requirements.Pairwise fun a b => a.fields < b.fields
  requirements : ∀ r, r ∈ p.requirements ↔ r ∈ b.requirements

/-- Sorted by a key, each once. -/
theorem pairwise_lt_insertionSort {α κ : Type} [LinearOrder κ] {key : α → κ} (hkey : Function.Injective key)
    {l : List α} (hl : l.Nodup) : (l.insertionSort fun a b => key a ≤ key b).Pairwise fun a b => key a < key b := by
  have hnodup : (l.insertionSort fun a b => key a ≤ key b).Nodup := (List.perm_insertionSort _ l).nodup_iff.2 hl
  have : Std.Total fun a b : α => key a ≤ key b := ⟨fun a b => le_total _ _⟩
  have : IsTrans α fun a b : α => key a ≤ key b := ⟨fun a b c => le_trans⟩
  exact ((List.pairwise_insertionSort (fun a b => key a ≤ key b) l).and hnodup).imp
    fun h => lt_of_le_of_ne h.1 fun heq => h.2 (hkey heq)

theorem eq_of_pairwise_lt {α κ : Type} [LinearOrder κ] {key : α → κ} {l l' : List α}
    (hl : l.Pairwise fun a b => key a < key b) (hl' : l'.Pairwise fun a b => key a < key b)
    (hmem : ∀ a, a ∈ l ↔ a ∈ l') : l = l' := by
  have hperm : l.Perm l' := (List.perm_ext_iff_of_nodup (hl.imp fun h heq => h.ne (congrArg key heq))
    (hl'.imp fun h heq => h.ne (congrArg key heq))).2 hmem
  exact List.Perm.eq_of_pairwise (fun a b _ _ hab hba => absurd hab hba.asymm) hl hl' hperm

theorem compilePackage_canonical (h : compilePackage rels decls = .ok p) : Canonical (bootstrapOf decls) p := by
  unfold compilePackage at h
  obtain ⟨header, hheader, h⟩ := bind_ok h
  obtain ⟨entities, hentities, h⟩ := bind_ok h
  obtain ⟨requirements, hrequirements, h⟩ := bind_ok h
  obtain ⟨_, -, h⟩ := bind_ok h
  obtain ⟨block, hblock, h⟩ := bind_ok h
  obtain ⟨facts, hfacts, h⟩ := bind_ok h
  obtain ⟨compiled, hcompiled, h⟩ := bind_ok h
  obtain ⟨_, -, h⟩ := bind_ok h
  cases h
  have hconst := compileEntities_constants hentities
  have hE := hconst.get_iff
  have hnamed := compiledFacts_named hcompiled
  obtain ⟨r, hsound, rfl⟩ := compileRequirements_sound hrequirements
  have hreqs : r.requirements.Nodup := hsound.names.of_map _
  have hnodup : facts.Nodup := (compileBootstrap_ok hfacts ⟨List.nodup_nil, nofun⟩).nodup
  have hsort : (sortFacts compiled).map CompiledBootstrapFact.named =
      facts.insertionSort fun a b => toLex a ≤ toLex b := by
    rw [sortFacts, List.map_insertionSort _ (fun a b => toLex a ≤ toLex b) _ _ fun a _ b _ => Iff.rfl, hnamed]
  refine ⟨?_, hconst.sorted, hconst.mem, ?_, fun f => ?_, ?_, fun y => ?_⟩
  · ext ⟨id, version⟩
    exact packageHeader_iff hheader id version
  · rw [hsort]
    exact pairwise_lt_insertionSort toLex.injective hnodup
  · rw [hsort, List.mem_insertionSort, compileBootstrap_means hE hfacts f]
    constructor
    · rintro (hf | ⟨values, hmem, hf⟩)
      · cases hf
      · exact ⟨block, values, (bootstrapBlock_iff hblock block).2 rfl, hmem, hf⟩
    · rintro ⟨block', values, hdecl, hmem, hf⟩
      rw [(bootstrapBlock_iff hblock block').1 hdecl] at hmem
      exact .inr ⟨values, hmem, hf⟩
  · exact pairwise_lt_insertionSort (fun _ _ => CapabilityRequirement.fields_inj) hreqs
  · rw [sortRequirements, List.mem_insertionSort, compileRequirements_asks hE hrequirements y]
    simp only [mem_requireDecls]
    rfl

theorem Canonical.agree_iff {b b' : Bootstrap} {q : CompiledPackage} (hp : Canonical b p) (hq : Canonical b' q) :
    p.Agree q ↔ b = b' := by
  constructor
  · intro h
    refine Bootstrap.ext ?_ (Set.ext fun e => ?_) (Set.ext fun f => ?_) (Set.ext fun r => ?_)
    · rw [hp.header, hq.header, h.packageId, h.bootstrapVersion]
    · rw [← hp.entities, ← hq.entities, h.entities]
    · rw [← hp.facts, ← hq.facts, h.facts]
    · rw [← hp.requirements, ← hq.requirements, h.requirements]
  · rintro rfl
    have hheader := Set.singleton_injective (hp.header.symm.trans hq.header)
    exact {
      packageId := congrArg Prod.fst hheader
      bootstrapVersion := congrArg Prod.snd hheader
      entities := eq_of_pairwise_lt hp.entities_sorted hq.entities_sorted fun e =>
        (hp.entities e).trans (hq.entities e).symm
      facts := eq_of_pairwise_lt hp.facts_sorted hq.facts_sorted fun f => (hp.facts f).trans (hq.facts f).symm
      requirements := eq_of_pairwise_lt hp.requirements_sorted hq.requirements_sorted fun r =>
        (hp.requirements r).trans (hq.requirements r).symm }

/-- **The hashed bytes name what a package installs**: two packages have the same bytes when
their declarations, in whatever order, say the same id and version, the same constants, facts
and requirements, and only then; the ids of relations in their stores do not matter. -/
theorem digest_identifies {rels' : List RelInfo} {decls' : List PackageDecl} {q : CompiledPackage}
    (hp : compilePackage rels decls = .ok p) (hq : compilePackage rels' decls' = .ok q)
    (hpl : p.Counted) (hql : q.Counted) :
    p.digestInput = q.digestInput ↔ bootstrapOf decls = bootstrapOf decls' :=
  (CompiledPackage.digestInput_iff hpl hql).trans
    ((compilePackage_canonical hp).agree_iff (compilePackage_canonical hq))

/-- Two lamps, told in one order. -/
def lampDecls : List PackageDecl :=
  [.package "lamps" 1, .entity "hall" 1, .entity "attic" 2,
    .bootstrap [("lit", [.entity "hall", .bool true]), ("lit", [.entity "attic", .bool false])]]

/-- The same, told in another. -/
def lampDecls' : List PackageDecl :=
  [.entity "attic" 2, .bootstrap [("lit", [.entity "attic", .bool false]), ("lit", [.entity "hall", .bool true])],
    .other, .entity "hall" 1, .package "lamps" 1]

def lampRels (id : RelId) : List RelInfo := [⟨"lit", id, [⟨"at", .ent⟩, ⟨"on", .bool⟩]⟩]

/-- The package either compiles to, with the id its store gave the relation. -/
def lampCompiled (id : RelId) : CompiledPackage where
  packageId := "lamps"
  bootstrapVersion := 1
  entities := [("attic", ⟨2⟩), ("hall", ⟨1⟩)]
  bootstrapFacts := [⟨"lit", id, ⟨[.ent ⟨1⟩, .bool true]⟩⟩, ⟨"lit", id, ⟨[.ent ⟨2⟩, .bool false]⟩⟩]
  requirements := []

theorem lampCompiled_counted (id : RelId) : (lampCompiled id).Counted := by
  constructor <;> simp [lampCompiled] <;> decide

theorem lamps_identified : bootstrapOf lampDecls = bootstrapOf lampDecls' := by
  have hp : compilePackage (lampRels 7) lampDecls = .ok (lampCompiled 7) := rfl
  have hq : compilePackage (lampRels 12) lampDecls' = .ok (lampCompiled 12) := rfl
  exact (digest_identifies hp hq (lampCompiled_counted 7) (lampCompiled_counted 12)).1 rfl

end Compiled

end Grmpl
