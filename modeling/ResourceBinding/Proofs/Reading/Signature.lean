import ResourceBinding.Proofs.Reading.Cursor
import ResourceBinding.Reading.Signature

/-!
# What a signature that was read consists of

Types and signatures that were read hold what text has a form for: names that are names, scalar
types that have a word, counts of 32 bits (`Reader.ensures_type`, `Reader.ensures_signature`).
-/

namespace ResourceBinding

/-- Text has a word for the scalar type. -/
def Scalar.HasWord (s : Scalar) : Prop :=
  ofWord? s.word = some s

theorem Scalar.hasWord_of_ofWord? {w : String} {s : Scalar} (h : ofWord? w = some s) :
    s.HasWord := by
  unfold ofWord? at h
  split at h
  all_goals
    cases h
    try rfl

/-- The type can be written as text. -/
inductive WrittenType.Readable : WrittenType → Prop
  | scalar {s : Scalar} : s.HasWord → Readable (.scalar s)
  | vector {size : VectorSize} {s : Scalar} : s.HasWord → Readable (.vector size s)
  | array {element : WrittenType} {count : Option Nat} :
      Readable element → (∀ n, count = some n → n < 0x100000000) → Readable (.array element count)
  | struct {name : Option String} {members : List WrittenType} :
      (∀ n, name = some n → IsName n) → (∀ m ∈ members, Readable m) →
      Readable (.struct name members)
  | pointer {space : AddressSpace} {pointee : WrittenType} :
      Readable pointee → Readable (.pointer space pointee)
  | sampler : Readable .sampler
  | image {access : ImageAccess} : Readable (.image access)

/-- The numbers of the mark have 32 bits. -/
structure WrittenMark.Readable (d : WrittenMark) : Prop where
  set_lt : d.set < 0x100000000
  binding_lt : d.binding < 0x100000000
  depth_lt : d.depth < 0x100000000

/-- The parameter can be written as text: only a declaration may leave out its name. -/
structure WrittenParam.Readable (isDeclaration : Bool) (p : WrittenParam) : Prop where
  name : ∀ n, p.name = some n → IsName n
  named : isDeclaration = false → p.name.isSome
  type : p.type.Readable
  mark : ∀ d, p.direct = some d → d.Readable

/-- The signature can be written as text. -/
structure Signature.Readable (s : Signature) : Prop where
  name : IsName s.name
  params : ∀ p ∈ s.params, p.Readable s.isDeclaration
  result : ∀ type, s.result = some type → type.Readable

namespace Reader

/-! ## Types -/

theorem ensures_valueName? : valueName?.Ensures fun name => ∀ n, name = some n → IsName n := by
  refine ensures_peek.bind fun next hnext => ?_
  split
  · rename_i name
    refine ensures_advance.bind fun _ _ => ensures_pure fun n hn => ?_
    cases hn
    exact hnext _ rfl
  · exact ensures_pure fun _ hn => by cases hn

theorem ensures_vectorSize : vectorSize.Ensures fun _ => True := by
  refine ensures_line.bind fun _ _ => ensures_natural.bind fun count _ => ?_
  split
  · exact ensures_pure trivial
  · exact ensures_refuse _ _

theorem hasWord_of_keyword {w : String} {s : Scalar}
    (h : TypeKeyword.ofWord? w = some (.scalar s)) : s.HasWord := by
  unfold TypeKeyword.ofWord? at h
  split at h
  case h_7 =>
    obtain ⟨found, hfound, heq⟩ := Option.map_eq_some_iff.mp h
    cases heq
    exact Scalar.hasWord_of_ofWord? hfound
  all_goals cases h

theorem ensures_typeWithin : ∀ depth, (typeWithin depth).Ensures WrittenType.Readable
  | 0 => ensures_expected _
  | depth + 1 => by
    have ih := ensures_typeWithin depth
    refine (ensures_takeWord (P := fun keyword => ∀ s, keyword = .scalar s → s.HasWord)
      fun w keyword hkeyword s hs => hasWord_of_keyword (hs ▸ hkeyword)).bind fun keyword hkeyword => ?_
    cases keyword with
    | scalar s => exact ensures_pure (.scalar (hkeyword s rfl))
    | vector =>
      refine (ensures_sign '<').bind fun _ _ => ensures_vectorSize.bind fun size _ =>
        (ensures_sign ',').bind fun _ _ =>
          (ensures_takeWord fun _ _ => Scalar.hasWord_of_ofWord?).bind fun s hs =>
            (ensures_sign '>').bind fun _ _ => ensures_pure (.vector hs)
    | array =>
      refine (ensures_sign '<').bind fun _ _ => ih.bind fun element helement => ?_
      exact (ensures_eat _).bind fun present _ =>
        ensures_optional ensures_natural fun count hcount =>
          (ensures_sign '>').bind fun _ _ =>
            ensures_pure (WrittenType.Readable.array helement hcount)
    | struct =>
      exact ensures_valueName?.bind fun name hname => (ensures_sign _).bind fun _ _ =>
        (ensures_itemsUntil _ ih).bind fun members hmembers =>
          ensures_pure (.struct hname hmembers)
    | pointer =>
      exact (ensures_sign '<').bind fun _ _ =>
        (ensures_takeWord (P := fun _ => True) fun _ _ _ => trivial).bind fun space _ =>
          (ensures_sign ',').bind fun _ _ => ih.bind fun pointee hpointee =>
            (ensures_sign '>').bind fun _ _ => ensures_pure (.pointer hpointee)
    | sampler => exact ensures_pure .sampler
    | image =>
      exact (ensures_sign '<').bind fun _ _ =>
        (ensures_takeWord (P := fun _ => True) fun _ _ _ => trivial).bind fun access _ =>
          (ensures_sign '>').bind fun _ _ => ensures_pure .image

/-- **A type that was read can be written.** -/
theorem ensures_type : type.Ensures WrittenType.Readable :=
  ensures_bound.bind fun depth _ => ensures_typeWithin depth

/-! ## Signatures -/

theorem ensures_head : head.Ensures fun _ => True := by
  refine (ensures_takeWord (P := fun _ => True) fun _ _ _ => trivial).bind fun words _ => ?_
  refine ensures_ite (fun _ => (ensures_eat _).bind fun _ _ => ?_) fun _ => ensures_pure trivial
  exact ensures_ite (fun _ => ensures_pure trivial) fun _ => ensures_pure trivial

theorem ensures_direct : direct.Ensures WrittenMark.Readable :=
  ensures_line.bind fun _ _ => (ensures_sign '(').bind fun _ _ =>
    ensures_functionName.bind fun _ _ => (ensures_sign ',').bind fun _ _ =>
      ensures_natural.bind fun _ hset => (ensures_sign ',').bind fun _ _ =>
        ensures_natural.bind fun _ hbinding => (ensures_sign ',').bind fun _ _ =>
          ensures_natural.bind fun _ hdepth => (ensures_sign ')').bind fun _ _ =>
            ensures_pure ⟨hset, hbinding, hdepth⟩

theorem ensures_paramName (isDeclaration : Bool) :
    (paramName isDeclaration).Ensures fun name =>
      (∀ n, name = some n → IsName n) ∧ (isDeclaration = false → name.isSome) := by
  have hnamed : (do
      let name ← valueName
      sign ':'
      return some name : Reader (Option String)).Ensures fun name =>
        (∀ n, name = some n → IsName n) ∧ (isDeclaration = false → name.isSome) := by
    refine ensures_valueName.bind fun name hname => (ensures_sign ':').bind fun _ _ =>
      ensures_pure ⟨fun n hn => ?_, fun _ => rfl⟩
    exact Option.some.inj hn ▸ hname
  refine ensures_peek.bind fun next _ => ?_
  split
  · exact hnamed
  · exact hnamed
  · exact ensures_pure ⟨by simp, by simp⟩

theorem ensures_param (isDeclaration : Bool) :
    (param isDeclaration).Ensures (WrittenParam.Readable isDeclaration) := by
  exact (ensures_paramName isDeclaration).bind fun name hname => ensures_type.bind fun type htype =>
    (ensures_eat _).bind fun present _ => ensures_optional ensures_direct fun mark hmark =>
      ensures_pure ⟨hname.1, hname.2, htype, hmark⟩

/-- **A signature that was read can be written.** -/
theorem ensures_signature : signature.Ensures Signature.Readable := by
  exact ensures_head.bind fun words _ => ensures_line.bind fun line _ =>
    ensures_functionName.bind fun name hname => (ensures_sign '(').bind fun _ _ =>
      (ensures_itemsUntil ')' (ensures_param words.1)).bind fun params hparams =>
        (ensures_eat _).bind fun present _ =>
          ensures_optional ensures_type fun result hresult =>
            (ensures_eat _).bind fun isPure _ => ensures_pure ⟨hname, hparams, hresult⟩

end Reader

end ResourceBinding
