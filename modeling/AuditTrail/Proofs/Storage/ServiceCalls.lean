import AuditTrail.Storage.Bucket

/-!
# Calls of the object service

A call that only reads meets its result or takes a fault that was staged, and a service without staged failures gives
that result and stays as it is (`Meets`). Reading calls follow one another (`Meets.andThen`), and so a listing meets
all keys with a common beginning, however they fall on pages (`meets_list`). A put either fails and leaves the bucket as
it was, or puts its object (`put_cases`).
-/

namespace AuditTrail

namespace ObjectService

/-- A bucket of a name has given objects, and no other bucket has the name. -/
structure Serves (s : ObjectService) (name : Text) (b : Bucket) : Prop where
  pageSize : 0 < s.pageSize
  bucket : s.bucket? name = some b
  only : ∀ c ∈ s.buckets, c.1 = name → c = (name, b)

/-- No answer of a call is staged. -/
def IsCalm (s : ObjectService) : Prop := ∀ kind, s.staged kind = []

variable {s : ObjectService} {name : Text} {b : Bucket} {α β : Type}

private theorem Serves.setBucket_self (h : s.Serves name b) : s.setBucket name b = s := by
  have hc : ∀ c ∈ s.buckets, (if c.1 = name then (name, b) else c) = id c := by
    intro c hc
    by_cases hn : c.1 = name
    · rw [if_pos hn, h.only c hc hn, id]
    · rw [if_neg hn, id]
  rw [ObjectService.setBucket, List.map_congr_left hc, List.map_id]

private theorem Serves.setBucket (h : s.Serves name b) (b' : Bucket) : (s.setBucket name b').Serves name b' where
  pageSize := h.pageSize
  bucket := by
    obtain ⟨c, hc, -⟩ := Option.map_eq_some_iff.mp h.bucket
    have hf : (s.buckets.map fun c => if c.1 = name then (name, b') else c).find? (fun c => c.1 == name) =
        some (name, b') := by
      rw [List.find?_map]
      have hp : ((fun c : Text × Bucket => c.1 == name) ∘ fun c => if c.1 = name then (name, b') else c) =
          fun c => c.1 == name := by
        funext c
        by_cases hn : c.1 = name <;> simp [hn]
      have hn : c.1 = name := by
        have hb := List.find?_some hc
        exact eq_of_beq hb
      rw [hp, hc, Option.map_some, if_pos hn]
    rw [bucket?, ObjectService.setBucket, hf, Option.map_some]
  only c hc hn := by
    obtain ⟨d, hd, rfl⟩ := List.mem_map.mp hc
    by_cases hdn : d.1 = name
    · rw [if_pos hdn]
    · rw [if_neg hdn] at hn
      exact absurd hn hdn

/-- A call for an answer takes the next staged one, or else finds the service calm in this kind of call. -/
private theorem takeStaged_cases (h : s.Serves name b) (kind : RemoteCall) :
    (takeStaged kind s).2.Serves name b ∧ (takeStaged kind s).2.pageSize = s.pageSize ∧
      (s.IsCalm → takeStaged kind s = (none, s)) := by
  rw [takeStaged]
  cases hs : s.staged kind with
  | nil => exact ⟨h, rfl, fun _ => rfl⟩
  | cons f later =>
    refine ⟨⟨h.pageSize, h.bucket, h.only⟩, rfl, ?_⟩
    intro hc
    exact absurd (hs.symm.trans (hc kind)) (List.cons_ne_nil f later)

private theorem staged_takeStaged (kind : RemoteCall) (s : ObjectService) :
    (∀ f, (takeStaged kind s).1 = some f → some f ∈ s.staged kind) ∧
      ∀ other, (takeStaged kind s).2.staged other ⊆ s.staged other := by
  rw [takeStaged]
  cases hs : s.staged kind with
  | nil => exact ⟨fun f hf => absurd hf (by simp), fun _ => List.Subset.refl _⟩
  | cons answer later =>
    refine ⟨?_, ?_⟩
    · rintro f rfl
      exact List.mem_cons_self
    · intro other
      by_cases ho : other = kind
      · simp only [ho, if_true, hs, List.subset_cons_self]
      · simp only [ho, if_false, List.Subset.refl]

/-- Calls that change nothing meet a result: they end with it, or with a fault that was staged, and the bucket stays
as it is. Those of a calm service end with the result. -/
structure Meets (s : ObjectService) (name : Text) (b : Bucket) (x : Except CallFault α)
    (out : Except CallFault α × ObjectService) : Prop where
  serves : out.2.Serves name b
  pageSize : out.2.pageSize = s.pageSize
  staged : ∀ kind, out.2.staged kind ⊆ s.staged kind
  result : (∃ kind f, some f ∈ s.staged kind ∧ out.1 = .error (f.toCallFault kind)) ∨ out.1 = x
  calm : s.IsCalm → out = (x, s)

theorem Meets.pure (h : s.Serves name b) (x : Except CallFault α) : s.Meets name b x (x, s) :=
  ⟨h, rfl, fun _ => List.Subset.refl _, .inr rfl, fun _ => rfl⟩

private theorem meets_call (h : s.Serves name b) {run : Bucket → Except CallFault α × Bucket} {x : Except CallFault α}
    (hr : run b = (x, b)) (kind : RemoteCall) : s.Meets name b x (call kind name run s) := by
  obtain ⟨hserves, hsize, hcalm⟩ := takeStaged_cases h kind
  obtain ⟨htaken, hleft⟩ := staged_takeStaged kind s
  rw [call]
  cases ht : takeStaged kind s with
  | mk answer t =>
    rw [ht] at hserves hsize hcalm htaken hleft
    cases answer with
    | some f =>
      refine ⟨hserves, hsize, hleft, .inl ⟨kind, f, htaken f rfl, rfl⟩, ?_⟩
      intro hs
      exact absurd (congrArg Prod.fst (hcalm hs)) (by simp)
    | none =>
      simp only [hserves.bucket, hr, hserves.setBucket_self]
      refine ⟨hserves, hsize, hleft, .inr rfl, ?_⟩
      intro hs
      rw [show t = s from congrArg Prod.snd (hcalm hs)]

def andThen (out : Except CallFault α × ObjectService) (next : α → ObjectService → Except CallFault β × ObjectService) :
    Except CallFault β × ObjectService :=
  match out with
  | (.error f, t) => (.error f, t)
  | (.ok a, t) => next a t

/-- Calls after calls meet what their results come to. -/
theorem Meets.andThen {x : Except CallFault α} {y : α → Except CallFault β} {out : Except CallFault α × ObjectService}
    {next : α → ObjectService → Except CallFault β × ObjectService} (h : s.Meets name b x out)
    (hn : ∀ a, x = .ok a → ∀ t : ObjectService, t.Serves name b → t.pageSize = s.pageSize →
      t.Meets name b (y a) (next a t)) :
    s.Meets name b (x >>= y) (ObjectService.andThen out next) := by
  obtain ⟨result, t⟩ := out
  cases result with
  | error f =>
    refine ⟨h.serves, h.pageSize, h.staged, ?_, ?_⟩
    · rcases h.result with ⟨kind, g, hg, hf⟩ | rfl
      · exact .inl ⟨kind, g, hg, congrArg Except.error (Except.error.inj hf)⟩
      · exact .inr rfl
    · intro hs
      obtain ⟨rfl, rfl⟩ := Prod.mk.inj (h.calm hs)
      rfl
  | ok a =>
    obtain rfl : .ok a = x := by
      rcases h.result with ⟨kind, f, -, hf⟩ | ha
      · exact absurd hf (by simp)
      · exact ha
    have hy := hn a rfl t h.serves h.pageSize
    refine ⟨hy.serves, hy.pageSize.trans h.pageSize, fun kind => ?_, ?_, ?_⟩
    · exact List.Subset.trans (hy.staged kind) (h.staged kind)
    · rcases hy.result with ⟨kind, f, hf, hout⟩ | hout
      · exact .inl ⟨kind, f, h.staged kind hf, hout⟩
      · exact .inr hout
    · intro hs
      obtain rfl : t = s := congrArg Prod.snd (h.calm hs)
      exact hy.calm hs

theorem Meets.bind {x : Except CallFault α} {out : Except CallFault α × ObjectService} (h : s.Meets name b x out)
    (g : α → Except CallFault β) : s.Meets name b (x >>= g) (out.1 >>= g, out.2) where
  serves := h.serves
  pageSize := h.pageSize
  staged := h.staged
  result := by
    rcases h.result with ⟨kind, f, hf, hout⟩ | hout
    · exact .inl ⟨kind, f, hf, by rw [hout]; rfl⟩
    · exact .inr (by rw [hout])
  calm hs := by rw [h.calm hs]

theorem Meets.map {x : Except CallFault α} {out : Except CallFault α × ObjectService} (h : s.Meets name b x out)
    (g : α → β) : s.Meets name b (x.map g) (out.1.map g, out.2) := by
  have hg : ∀ y : Except CallFault α, y.map g = y >>= fun a => .ok (g a) := fun y => by cases y <;> rfl
  rw [hg, hg]
  exact h.bind _

private theorem pages_succ (name folder : Text) (n : Nat) (left : List Text) (s : ObjectService) :
    pages name folder (n + 1) left s =
      andThen (call .listObjects name (fun b => (.ok (left.take s.pageSize), b)) s) fun page t =>
        ((pages name folder n (left.drop t.pageSize) t).1.map (page ++ ·),
          (pages name folder n (left.drop t.pageSize) t).2) := by
  rw [pages]
  cases call .listObjects name (fun b => (.ok (left.take s.pageSize), b)) s with
  | mk result t => cases result <;> rfl

private theorem meets_pages (folder : Text) (n : Nat) : ∀ (left : List Text) (s : ObjectService), s.Serves name b →
    s.Meets name b (.ok (left.take (n * s.pageSize))) (pages name folder n left s) := by
  induction n with
  | zero =>
    intro left s h
    rw [Nat.zero_mul, List.take_zero]
    exact .pure h (.ok [])
  | succ n ih =>
    intro left s h
    have hrun : (fun b : Bucket => ((.ok (left.take s.pageSize), b) : Except CallFault (List Text) × Bucket)) b =
        (.ok (left.take s.pageSize), b) := rfl
    have hsize : s.pageSize + n * s.pageSize = (n + 1) * s.pageSize := by rw [Nat.succ_mul, Nat.add_comm]
    rw [pages_succ]
    apply Meets.andThen (y := fun _ => .ok (left.take ((n + 1) * s.pageSize))) (meets_call h hrun .listObjects)
    intro page hpage t ht hp
    obtain rfl := Except.ok.inj hpage
    have hrest := (ih (left.drop t.pageSize) t ht).map (left.take s.pageSize ++ ·)
    have htake : left.take s.pageSize ++ (left.drop t.pageSize).take (n * t.pageSize) =
        left.take ((n + 1) * s.pageSize) := by rw [hp, ← List.take_add, hsize]
    rwa [Except.map, htake] at hrest

private theorem length_le_pages {p : Nat} (hp : 0 < p) (n : Nat) : n ≤ pageCount p n * p := by
  have hd := Nat.div_add_mod (n + p - 1) p
  have hm := Nat.mod_lt (n + p - 1) hp
  have hle : (n + p - 1) / p * p ≤ pageCount p n * p := Nat.mul_le_mul_right p (Nat.le_max_right 1 _)
  rw [Nat.mul_comm] at hd
  omega

/-- A listing meets all keys with a common beginning, page by page. -/
theorem meets_list (h : s.Serves name b) (folder : Text) :
    s.Meets name b (.ok (keysUnder folder b)) (list name folder s) := by
  have hk : ((s.bucket? name).map (keysUnder folder)).getD [] = keysUnder folder b := by
    rw [h.bucket, Option.map_some, Option.getD_some]
  have hp := meets_pages folder (pageCount s.pageSize (keysUnder folder b).length) (keysUnder folder b) s h
  rw [List.take_of_length_le (length_le_pages h.pageSize _)] at hp
  rw [list, hk]
  exact hp

theorem meets_get (h : s.Serves name b) {key : Text} {bs : List UInt8} (hk : b.get? key = some bs) :
    s.Meets name b (.ok bs) (get name key s) := by
  apply meets_call h
  simp only [hk]

/-- A put fails and leaves the bucket as it was, or puts its object; a calm service does not fail. -/
theorem put_cases (h : s.Serves name b) (key : Text) (bs : List UInt8) :
    ((∃ f, (put name key bs s).1 = .error f) ∧ (put name key bs s).2.Serves name b ∨
        (put name key bs s).1 = .ok () ∧ (put name key bs s).2.Serves name (b.put key bs)) ∧
      (s.IsCalm → (put name key bs s).1 = .ok () ∧ (put name key bs s).2.IsCalm) := by
  obtain ⟨hserves, -, hcalm⟩ := takeStaged_cases h .putObject
  rw [put, call]
  cases ht : takeStaged .putObject s with
  | mk staged t =>
    rw [ht] at hserves hcalm
    cases staged with
    | some f =>
      refine ⟨.inl ⟨⟨_, rfl⟩, hserves⟩, ?_⟩
      intro hs
      exact absurd (congrArg Prod.fst (hcalm hs)) (by simp)
    | none =>
      simp only [hserves.bucket]
      refine ⟨.inr ⟨trivial, hserves.setBucket _⟩, ?_⟩
      intro hs
      obtain rfl : t = s := congrArg Prod.snd (hcalm hs)
      exact ⟨trivial, hs⟩

end ObjectService

end AuditTrail
