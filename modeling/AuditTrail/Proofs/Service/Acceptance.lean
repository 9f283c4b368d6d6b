import AuditTrail.Proofs.Decimal.IntegerTexts
import AuditTrail.Trail

/-!
# Accepted settings

Named texts are either refused, by a fault whose message names the variable that is at fault (`Settings.Refuses`), or
accepted as settings of which each is told by its variable (`Settings.Accepts`); nothing is refused without a fault
(`Settings.accepted_iff`). Accepted settings can be served if the widest range is a duration at all, and else cannot
(`Settings.acceptance`).
-/

namespace AuditTrail

def SettingFault.variable : SettingFault → Text
  | unknownStore _ => lit "AUDITCHAIN_STORE"
  | bucketMissing => lit "AUDITCHAIN_S3_BUCKET"
  | notAnInteger key _ | notPositive key _ | notABoolean key _ => key

private theorem SettingFault.variable_isInfix_message (why : SettingFault) : why.variable <:+: why.message := by
  cases why with
  | unknownStore given =>
    have hkey : lit "AUDITCHAIN_STORE" <+: lit "AUDITCHAIN_STORE must be one of " := by decide +kernel
    rw [message, List.append_assoc, List.append_assoc]
    exact (hkey.trans (List.prefix_append _ _)).isInfix
  | bucketMissing =>
    have hkey : lit "AUDITCHAIN_S3_BUCKET" <+: lit "AUDITCHAIN_S3_BUCKET is required when AUDITCHAIN_STORE=s3" := by
      decide +kernel
    exact hkey.isInfix
  | notAnInteger key given | notPositive key given | notABoolean key given =>
    rw [message, List.append_assoc]
    exact (List.prefix_append key _).isInfix

namespace Settings

def numberKeys : List String := ["AUDITCHAIN_QUEUE_MAXSIZE", "AUDITCHAIN_VERIFY_MAX_RANGE_DAYS", "METRICS_PORT"]

def storeWord (env : Environment) : Text := Text.lower (Text.trim (env.getD "AUDITCHAIN_STORE" "memory"))

/-- The variables hold what a fault says. -/
def Refuses (env : Environment) : SettingFault → Prop
  | .unknownStore given => given = storeWord env ∧ ∀ kind : StoreKind, kind.name ≠ given
  | .bucketMissing => storeWord env = StoreKind.bucket.name ∧ env.nonEmpty? "AUDITCHAIN_S3_BUCKET" = none
  | .notAnInteger name t =>
    ∃ key ∈ numberKeys, name = lit key ∧ env.nonBlank? key = some t ∧ ∀ i, ¬Decimal.SpellsInteger t i
  | .notPositive name i =>
    ∃ key ∈ numberKeys, name = lit key ∧ ∃ t, env.nonBlank? key = some t ∧ Decimal.SpellsInteger t i ∧ i ≤ 0
  | .notABoolean name t => name = lit "METRICS_ENABLED" ∧ env.nonBlank? "METRICS_ENABLED" = some t ∧
    Text.lower (Text.trim t) ∉ onWords ++ offWords

/-- The number that a variable holds, if it is not blank. -/
inductive HoldsNumber (env : Environment) (key : String) : Option Nat → Prop where
  | blank : env.nonBlank? key = none → HoldsNumber env key none
  | number {t : Text} {n : Nat} : env.nonBlank? key = some t → Decimal.SpellsInteger t n → 0 < n →
      HoldsNumber env key (some n)

/-- The switch that a variable holds, if it is not blank. -/
inductive HoldsSwitch (env : Environment) (key : String) : Option Bool → Prop where
  | blank : env.nonBlank? key = none → HoldsSwitch env key none
  | on {t : Text} : env.nonBlank? key = some t → Text.lower (Text.trim t) ∈ onWords → HoldsSwitch env key (some true)
  | off {t : Text} : env.nonBlank? key = some t → Text.lower (Text.trim t) ∈ offWords → HoldsSwitch env key (some false)

/-- Each setting is what its variable holds, or else the default. -/
structure Accepts (env : Environment) (s : Settings) : Prop where
  store : s.store.name = storeWord env
  bucket : s.bucket = env.nonEmpty? "AUDITCHAIN_S3_BUCKET"
  bucketOfStore : s.store = .bucket → ∃ b, s.bucket = some b ∧ b ≠ []
  queueLimit : ∃ n, HoldsNumber env "AUDITCHAIN_QUEUE_MAXSIZE" n ∧ s.queueLimit = n.getD 10000
  maxRangeDays : HoldsNumber env "AUDITCHAIN_VERIFY_MAX_RANGE_DAYS" s.maxRangeDays
  metricsEnabled : ∃ b, HoldsSwitch env "METRICS_ENABLED" b ∧ s.metricsEnabled = b.getD false
  metricsPort : ∃ n, HoldsNumber env "METRICS_PORT" n ∧ s.metricsPort = n.getD 8080
  queueLimit_pos : 0 < s.queueLimit
  metricsPort_pos : 0 < s.metricsPort

variable {env : Environment} {key : String}

private theorem readPositive_eq_ok {o : Option Nat} (h : readPositive env key = .ok o) : HoldsNumber env key o := by
  rw [readPositive] at h
  split at h
  · next hb => exact Except.ok.inj h ▸ .blank hb
  · next t ht =>
    split at h
    · exact absurd h (by simp)
    · next i hi =>
      split at h
      · exact absurd h (by simp)
      · next hpos =>
        have hcast : ((i.toNat : Nat) : Int) = i := by omega
        rw [← Except.ok.inj h]
        exact .number ht (hcast.symm ▸ Decimal.readInteger_eq_some_iff.mp hi) (by omega)

private theorem readPositive_eq_error {f : Fault} (hk : key ∈ numberKeys) (h : readPositive env key = .error f) :
    ∃ why, f = .setting why ∧ Refuses env why := by
  rw [readPositive] at h
  split at h
  · exact absurd h (by simp)
  · next t ht =>
    split at h
    · next hn =>
      refine ⟨_, (Except.error.inj h).symm, key, hk, rfl, ht, fun i hi => ?_⟩
      exact absurd (hn.symm.trans (Decimal.readInteger_eq_some_iff.mpr hi)) (by simp)
    · next i hi =>
      split at h
      · next hle =>
        exact ⟨_, (Except.error.inj h).symm, key, hk, rfl, t, ht, Decimal.readInteger_eq_some_iff.mp hi, hle⟩
      · exact absurd h (by simp)

private theorem readSwitch_eq_ok {o : Option Bool} (h : readSwitch env key = .ok o) : HoldsSwitch env key o := by
  rw [readSwitch] at h
  split at h
  · next hb => exact Except.ok.inj h ▸ .blank hb
  · next t ht =>
    dsimp only at h
    split at h
    · next hon => exact Except.ok.inj h ▸ .on ht hon
    · split at h
      · next hoff => exact Except.ok.inj h ▸ .off ht hoff
      · exact absurd h (by simp)

private theorem readSwitch_eq_error {f : Fault} (h : readSwitch env "METRICS_ENABLED" = .error f) :
    ∃ why, f = .setting why ∧ Refuses env why := by
  rw [readSwitch] at h
  split at h
  · exact absurd h (by simp)
  · next t ht =>
    dsimp only at h
    split at h
    · exact absurd h (by simp)
    · next hon =>
      split at h
      · exact absurd h (by simp)
      · next hoff =>
        refine ⟨_, (Except.error.inj h).symm, rfl, ht, fun hm => ?_⟩
        exact (List.mem_append.mp hm).elim hon hoff

private theorem readStore_eq_ok {kind : StoreKind} (h : readStore env = .ok kind) : kind.name = storeWord env := by
  rw [readStore] at h
  split at h
  · next k hk =>
    have hname := List.find?_some hk
    rw [← Except.ok.inj h]
    exact eq_of_beq hname
  · exact absurd h (by simp)

private theorem readStore_eq_error {f : Fault} (h : readStore env = .error f) :
    ∃ why, f = .setting why ∧ Refuses env why := by
  rw [readStore] at h
  split at h
  · exact absurd h (by simp)
  · next hn =>
    refine ⟨_, (Except.error.inj h).symm, rfl, fun kind hkind => ?_⟩
    have hall : kind ∈ StoreKind.all := by cases kind <;> decide
    exact List.find?_eq_none.mp hn kind hall (beq_iff_eq.mpr hkind)

private theorem readBucket_eq_ok {kind : StoreKind} {b : Option Text} (h : readBucket env kind = .ok b) :
    b = env.nonEmpty? "AUDITCHAIN_S3_BUCKET" ∧ (kind = .bucket → b ≠ none) := by
  rw [readBucket] at h
  split at h
  · next t ht => exact ⟨by rw [ht, Except.ok.inj h], fun _ => by simp [← Except.ok.inj h]⟩
  · next hn =>
    split at h
    · exact absurd h (by simp)
    · next hk => exact ⟨by rw [hn, Except.ok.inj h], fun hb => absurd hb hk⟩

private theorem readBucket_eq_error {kind : StoreKind} {f : Fault} (hs : readStore env = .ok kind)
    (h : readBucket env kind = .error f) : ∃ why, f = .setting why ∧ Refuses env why := by
  rw [readBucket] at h
  split at h
  · exact absurd h (by simp)
  · next hn =>
    split at h
    · next hk => exact ⟨_, (Except.error.inj h).symm, (hk ▸ readStore_eq_ok hs).symm, hn⟩
    · exact absurd h (by simp)

private theorem nonEmpty?_ne_nil {t : Text} (h : env.nonEmpty? key = some t) : t ≠ [] := by
  rintro rfl
  rw [Environment.nonEmpty?, Option.filter_eq_some_iff] at h
  exact absurd h.2 (by decide)

private theorem HoldsNumber.getD_pos {o : Option Nat} {n : Nat} (h : HoldsNumber env key o) (hn : 0 < n) :
    0 < o.getD n := by
  cases h with
  | blank _ => exact hn
  | number _ _ hpos => exact hpos

/-- The first setting that is refused is the fault. -/
private theorem ofEnvironment_eq_error {f : Fault} (h : ofEnvironment env = .error f) :
    ∃ why, f = .setting why ∧ Refuses env why := by
  simp only [ofEnvironment, Fault.bind_eq_error_iff, pure, Except.pure, reduceCtorEq, and_false, exists_false,
    or_false] at h
  rcases h with h | ⟨kind, hs, h | ⟨b, -, h | ⟨q, -, h | ⟨m, -, h | ⟨e, -, h⟩⟩⟩⟩⟩
  · exact readStore_eq_error h
  · exact readBucket_eq_error hs h
  · exact readPositive_eq_error (by decide) h
  · exact readPositive_eq_error (by decide) h
  · exact readSwitch_eq_error h
  · exact readPositive_eq_error (by decide) h

private theorem ofEnvironment_eq_ok {s : Settings} (h : ofEnvironment env = .ok s) : Accepts env s := by
  simp only [ofEnvironment, Fault.bind_eq_ok_iff, pure, Except.pure, Except.ok.injEq] at h
  obtain ⟨kind, hstore, b, hbucket, q, hqueue, m, hrange, e, hswitch, p, hport, rfl⟩ := h
  have hq := readPositive_eq_ok hqueue
  have hp := readPositive_eq_ok hport
  obtain ⟨hb, hne⟩ := readBucket_eq_ok hbucket
  refine ⟨readStore_eq_ok hstore, hb, fun hk => ?_, ⟨q, hq, rfl⟩, readPositive_eq_ok hrange,
    ⟨e, readSwitch_eq_ok hswitch, rfl⟩, ⟨p, hp, rfl⟩, hq.getD_pos (by decide), hp.getD_pos (by decide)⟩
  obtain ⟨t, ht⟩ := Option.ne_none_iff_exists'.mp (hne hk)
  exact ⟨t, ht, nonEmpty?_ne_nil (hb.symm.trans ht)⟩

private theorem Accepts.holdsNumber {s : Settings} (h : Accepts env s) (hk : key ∈ numberKeys) :
    ∃ n, HoldsNumber env key n := by
  obtain ⟨q, hq, -⟩ := h.queueLimit
  obtain ⟨p, hp, -⟩ := h.metricsPort
  simp only [numberKeys, List.mem_cons, List.not_mem_nil, or_false] at hk
  rcases hk with rfl | rfl | rfl
  · exact ⟨q, hq⟩
  · exact ⟨_, h.maxRangeDays⟩
  · exact ⟨p, hp⟩

private theorem HoldsNumber.spells_pos {o : Option Nat} {t : Text} (h : HoldsNumber env key o)
    (ht : env.nonBlank? key = some t) :
    ∃ n : Nat, Decimal.SpellsInteger t n ∧ 0 < n := by
  cases h with
  | blank hb => exact absurd (hb.symm.trans ht) (by simp)
  | @number u n hu hn hpos =>
    obtain rfl : u = t := Option.some.inj (hu.symm.trans ht)
    exact ⟨n, hn, hpos⟩

private theorem Accepts.not_refuses {s : Settings} (h : Accepts env s) (why : SettingFault) : ¬Refuses env why := by
  intro hr
  cases why with
  | unknownStore given => exact hr.2 s.store (h.store.trans hr.1.symm)
  | bucketMissing =>
    have hname : ∀ kind : StoreKind, kind.name = StoreKind.bucket.name → kind = .bucket := by
      intro kind hk
      cases kind with
      | bucket => rfl
      | memory | file => exact absurd hk (by decide)
    obtain ⟨b, hb, -⟩ := h.bucketOfStore (hname s.store (h.store.trans hr.1))
    exact absurd (hb.symm.trans (h.bucket.trans hr.2)) (by simp)
  | notAnInteger name t =>
    obtain ⟨key, hk, -, ht, hno⟩ := hr
    obtain ⟨o, ho⟩ := h.holdsNumber hk
    obtain ⟨n, hn, -⟩ := ho.spells_pos ht
    exact hno n hn
  | notPositive name i =>
    obtain ⟨key, hk, -, t, ht, hi, hle⟩ := hr
    obtain ⟨o, ho⟩ := h.holdsNumber hk
    obtain ⟨n, hn, hpos⟩ := ho.spells_pos ht
    rw [← Decimal.readInteger_eq_some_iff] at hi hn
    obtain rfl : (n : Int) = i := Option.some.inj (hn.symm.trans hi)
    omega
  | notABoolean name t =>
    obtain ⟨-, ht, hno⟩ := hr
    obtain ⟨b, hb, -⟩ := h.metricsEnabled
    have hword : ∀ {u : Text}, env.nonBlank? "METRICS_ENABLED" = some u → u = t :=
      fun hu => Option.some.inj (hu.symm.trans ht)
    cases hb with
    | blank hn => exact absurd (hn.symm.trans ht) (by simp)
    | on hu hon => exact hno (List.mem_append_left _ (hword hu ▸ hon))
    | off hu hoff => exact hno (List.mem_append_right _ (hword hu ▸ hoff))

/-- Named texts are accepted exactly if none of them is at fault. -/
theorem accepted_iff (env : Environment) : (∃ s, ofEnvironment env = .ok s) ↔ ∀ why, ¬Refuses env why := by
  constructor
  · rintro ⟨s, hs⟩
    exact (ofEnvironment_eq_ok hs).not_refuses
  · intro h
    cases he : ofEnvironment env with
    | ok s => exact ⟨s, rfl⟩
    | error f =>
      obtain ⟨why, -, hwhy⟩ := ofEnvironment_eq_error he
      exact absurd hwhy (h why)

/-- The widest range is a duration, if it is limited. -/
def HasRange (s : Settings) : Prop := ∀ days ∈ s.maxRangeDays, days ≤ Duration.dayLimit

variable {s : Settings}

private theorem maxRange_of_hasRange (h : s.HasRange) :
    s.maxRange = .ok (s.maxRangeDays.map fun days => (days * Duration.perDay : Nat)) := by
  rw [maxRange]
  cases hd : s.maxRangeDays with
  | none => rfl
  | some days => exact if_pos (h days hd)

private theorem maxRange_of_not_hasRange (h : ¬s.HasRange) : s.maxRange = .error .outOfRange := by
  rw [maxRange]
  cases hd : s.maxRangeDays with
  | none =>
    refine absurd (fun days hdays => ?_) h
    rw [hd] at hdays
    exact absurd hdays (by simp)
  | some days =>
    refine if_neg fun hle => h fun d hdays => ?_
    rw [hd, Option.mem_some_iff] at hdays
    exact hdays ▸ hle

/-- Named texts are refused with the name of a variable that is at fault, or accepted. Accepted settings can be served
exactly if their widest range is a duration. -/
theorem acceptance (env : Environment) :
    (∃ why, ofEnvironment env = .error (.setting why) ∧ Refuses env why ∧
      why.variable <:+: (Fault.setting why).message) ∨
    ∃ s, ofEnvironment env = .ok s ∧ Accepts env s ∧
      (s.HasRange → s.maxRange = .ok (s.maxRangeDays.map fun days => (days * Duration.perDay : Nat)) ∧
        ∀ t : Trail, ∃ served, t.withService s = .ok served) ∧
      (¬s.HasRange → s.maxRange = .error .outOfRange ∧ ∀ t : Trail, t.withService s = .error .outOfRange) := by
  cases h : ofEnvironment env with
  | error f =>
    obtain ⟨why, rfl, hwhy⟩ := ofEnvironment_eq_error h
    exact .inl ⟨why, rfl, hwhy, why.variable_isInfix_message⟩
  | ok s =>
    refine .inr ⟨s, rfl, ofEnvironment_eq_ok h, fun hs => ?_, fun hs => ?_⟩
    · have hr := maxRange_of_hasRange hs
      exact ⟨hr, fun t => ⟨_, by rw [Trail.withService, hr]; rfl⟩⟩
    · have hr := maxRange_of_not_hasRange hs
      exact ⟨hr, fun t => by rw [Trail.withService, hr]; rfl⟩

/-- A widest range of more days than a duration has is accepted, and cannot be served. -/
theorem acceptance_of_wide_range : ∃ s,
    ofEnvironment [(lit "AUDITCHAIN_VERIFY_MAX_RANGE_DAYS", lit "1000000000")] = .ok s ∧
      s.maxRange = .error .outOfRange ∧ ∀ t : Trail, t.withService s = .error .outOfRange := by
  have hread : (ofEnvironment [(lit "AUDITCHAIN_VERIFY_MAX_RANGE_DAYS", lit "1000000000")]).toOption.map maxRangeDays =
      some (some 1000000000) := by decide +kernel
  rcases acceptance [(lit "AUDITCHAIN_VERIFY_MAX_RANGE_DAYS", lit "1000000000")] with ⟨why, h, -⟩ | ⟨s, h, -, -, hno⟩
  · rw [h] at hread
    exact absurd hread (by simp [Except.toOption])
  · rw [h] at hread
    exact ⟨s, h, hno fun hs => absurd (hs 1000000000 (Option.some.inj hread)) (by decide)⟩

end Settings

end AuditTrail
