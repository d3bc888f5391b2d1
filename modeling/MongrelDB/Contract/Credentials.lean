import MongrelDB.Contract.Handles

/-!
# Where the credentials go

The client without credentials makes the same requests: what a request with credentials transfers
differs from what it would transfer without them in one header or in the user and the password, and
in nothing else. What a request returns or throws is made from the answer to the transfer. This
holds whichever steps of libcurl and of the allocator fail.
-/

namespace MongrelDB

open Text Traced

/-! ### Steps -/

variable {lib : Lib} {k : Nat} {easy easy' : Easy}

lemma runSteps_append (steps steps' : List EasyStep) :
    runSteps lib k easy (steps ++ steps') = runSteps lib k easy steps >>= fun easy =>
      runSteps lib (k + steps.length) easy steps' := by
  induction steps generalizing k easy with
  | nil => rfl
  | cons s steps ih =>
    rw [List.cons_append, runSteps, runSteps, Run.bind_assoc, List.length_cons, ← Nat.add_assoc,
      Nat.add_right_comm]
    congr 1
    funext easy
    exact ih

/-! ### Without credentials -/

/-- The same client without credentials. -/
def Impl.anonymous (impl : Impl) : Impl := { impl with token := [], username := [], password := [] }

/-- The headers that carry the token. -/
def Impl.bearer (impl : Impl) : List Bytes :=
  if impl.token = [] then [] else [cstr (ascii "Authorization: Bearer " ++ impl.token)]

/-- The user and the password, which are for clients without a token. -/
def Impl.userAndPassword (impl : Impl) : Option Bytes :=
  if impl.token = [] ∧ impl.username ≠ [] then
    some (cstr (impl.username ++ colon :: impl.password))
  else none

/-- The transfer is the other one with the credentials added: the token in a header of its own, and
the user and the password where libcurl makes that header of them, unless that option has failed.
With a token the list of headers is set once more. -/
structure Easy.Adds (impl : Impl) (easy easy' : Easy) : Prop where
  headers : easy.headers.getD [] = easy'.headers.getD [] ++ impl.bearer
  userPwd : easy.options.userPwd = impl.userAndPassword ∨ easy.options.userPwd = none
  httpHeader : impl.token = [] → easy.options.httpHeader = easy'.options.httpHeader
  options : { easy.options with userPwd := none, httpHeader := easy'.options.httpHeader } =
    easy'.options

/-- No user and password have been set, and the kind of credentials is the default one. -/
def Easy.Bare (easy : Easy) : Prop := easy.options.userPwd = none ∧ easy.options.httpAuth = true

lemma of_append {text : Bytes} (h : ((EasyStep.append text).run lib k easy).out = .ok easy') :
    easy' = { easy with headers := some (easy.headers.getD [] ++ [text]) } := by
  simp only [EasyStep.run] at h
  cases hfails : lib.fails k <;> rw [hfails] at h <;> cases h
  rfl

lemma of_concat (h : (EasyStep.concat.run lib k easy).out = .ok easy') : easy' = easy := by
  simp only [EasyStep.run] at h
  cases hfails : lib.fails k <;> rw [hfails] at h <;> cases h
  rfl

/-- The option is taken, or it is left as it is: there was no memory for it, or it is refused. -/
lemma of_setopt {option : EasyOption}
    (h : ((EasyStep.setopt option).run lib k easy).out = .ok easy') :
    easy' = easy ∨ easy' = { easy with options := option.set easy.options } := by
  simp only [EasyStep.run] at h
  generalize (lib.fails k || lib.refuses option) = left at h
  cases left <;> cases h
  · exact .inr rfl
  · exact .inl rfl

lemma bare_run {s : EasyStep} (hs : ∀ text, s ≠ .setopt (.userPwd text)) (h : easy.Bare)
    (ho : (s.run lib k easy).out = .ok easy') : easy'.Bare := by
  cases s with
  | append text =>
    obtain rfl := of_append ho
    exact h
  | concat =>
    obtain rfl := of_concat ho
    exact h
  | setopt option =>
    rcases of_setopt ho with rfl | rfl
    · exact h
    · cases option with
      | userPwd text => exact absurd rfl (hs text)
      | httpAuthBasic => exact ⟨h.1, rfl⟩
      | url | customRequest | httpHeader | writeFunction | writeData | timeout | connectTimeout
        | noSignal | maxFileSizeLarge | postFields | postFieldSize => exact h

lemma bare_runSteps {steps : List EasyStep} (hs : ∀ s ∈ steps, ∀ text, s ≠ .setopt (.userPwd text))
    (h : easy.Bare) (ho : (runSteps lib k easy steps).out = .ok easy') : easy'.Bare := by
  induction steps generalizing k easy with
  | nil =>
    cases ho
    exact h
  | cons s steps ih =>
    obtain ⟨hs, hsteps⟩ := List.forall_mem_cons.mp hs
    obtain ⟨easy₁, hrun, hrest⟩ := Run.out_bind_eq_ok ho
    exact ih hsteps (bare_run hs h hrun) hrest

/-- Setting the kind of credentials to the default one changes nothing. -/
lemma of_httpAuthBasic
    (h : ((EasyStep.setopt .httpAuthBasic).run lib k easy).out = .ok easy')
    (hauth : easy.options.httpAuth = true) : easy' = easy := by
  rcases of_setopt h with rfl | rfl
  · rfl
  · simp [EasyOption.set, ← hauth]

/-- Without a token nothing need be added. -/
lemma adds_self {impl : Impl} (htoken : impl.token = []) (h : easy.Bare) : easy.Adds impl easy where
  headers := by simp [Impl.bearer, htoken]
  userPwd := .inr h.1
  httpHeader _ := rfl
  options := by simp [← h.1]

lemma adds_bearer {impl : Impl} (htoken : impl.token ≠ []) (h : easy'.Bare)
    (ho : (runSteps lib k easy' impl.credentialSteps).out = .ok easy) : easy.Adds impl easy' := by
  have hsteps : impl.credentialSteps =
      [.concat, .append (cstr (ascii "Authorization: Bearer " ++ impl.token)),
        .setopt .httpHeader] := if_pos (by simpa using htoken)
  rw [hsteps] at ho
  obtain ⟨easy₁, hconcat, ho⟩ := Run.out_bind_eq_ok ho
  obtain ⟨easy₂, happend, ho⟩ := Run.out_bind_eq_ok ho
  obtain ⟨easy₃, hopt, ⟨⟩⟩ := Run.out_bind_eq_ok ho
  obtain rfl := of_concat hconcat
  obtain rfl := of_append happend
  rcases of_setopt hopt with rfl | rfl <;>
    exact
      { headers := by simp [Impl.bearer, htoken]
        userPwd := .inr h.1
        httpHeader := fun hnil => absurd hnil htoken
        options := by simp [EasyOption.set, ← h.1] }

lemma adds_userPwd {impl : Impl} (htoken : impl.token = []) (husername : impl.username ≠ [])
    (h : easy'.Bare) (ho : (runSteps lib k easy' impl.credentialSteps).out = .ok easy) :
    easy.Adds impl easy' := by
  have hsteps : impl.credentialSteps =
      [.concat, .setopt (.userPwd (cstr (impl.username ++ colon :: impl.password))),
        .setopt .httpAuthBasic] := by
    simp [Impl.credentialSteps, htoken, husername]
  rw [hsteps] at ho
  obtain ⟨easy₁, hconcat, ho⟩ := Run.out_bind_eq_ok ho
  obtain ⟨easy₂, hpwd, ho⟩ := Run.out_bind_eq_ok ho
  obtain ⟨easy₃, hauth, ⟨⟩⟩ := Run.out_bind_eq_ok ho
  obtain rfl := of_concat hconcat
  rcases of_setopt hpwd with rfl | rfl
  · obtain rfl := of_httpAuthBasic hauth h.2
    exact adds_self htoken h
  · obtain rfl := of_httpAuthBasic hauth h.2
    exact
      { headers := by simp [Impl.bearer, htoken]
        userPwd := .inl (by simp [EasyOption.set, Impl.userAndPassword, htoken, husername])
        httpHeader := fun _ => rfl
        options := by simp [EasyOption.set, ← h.1] }

lemma adds_credentialSteps {impl : Impl} (h : easy'.Bare)
    (ho : (runSteps lib k easy' impl.credentialSteps).out = .ok easy) : easy.Adds impl easy' := by
  by_cases htoken : impl.token = []
  · by_cases husername : impl.username = []
    · have hsteps : impl.credentialSteps = [] := by simp [Impl.credentialSteps, htoken, husername]
      rw [hsteps] at ho
      cases ho
      exact adds_self htoken h
    · exact adds_userPwd htoken husername h ho
  · exact adds_bearer htoken h ho

/-! ### Requests -/

variable {impl : Impl} {plat : Platform} {method : String} {path : Bytes} {body : Option Bytes}

/-- What is set up is what the client without credentials sets up, and then the credentials. -/
lemma settingUp_eq : impl.settingUp lib method path body =
    impl.anonymous.settingUp lib method path body >>= fun easy =>
      runSteps lib (impl.anonymous.setup method (impl.urlOf path) body).length easy
        impl.credentialSteps := by
  have hsetup : impl.setup method (impl.urlOf path) body =
      impl.anonymous.setup method (impl.urlOf path) body ++ impl.credentialSteps := by
    rw [Impl.setup, Impl.setup]
    congr 1
    exact (List.append_nil _).symm
  rw [Impl.settingUp, hsetup, runSteps_append, Nat.zero_add]
  rfl

lemma bare_anonymous
    (h : (impl.anonymous.settingUp lib method path body).out = .ok easy) : easy.Bare := by
  refine bare_runSteps ?_ (⟨rfl, rfl⟩ : Easy.Bare {}) h
  rintro s hs text rfl
  cases body <;> simp [Impl.setup, Impl.headerSteps, Impl.options, Impl.bodyOptions,
    Impl.credentialSteps, Impl.anonymous] at hs

lemma adds_of_settingUp (h : (impl.settingUp lib method path body).out = .ok easy) :
    ∃ easy', (impl.anonymous.settingUp lib method path body).out = .ok easy' ∧
      easy.Adds impl easy' := by
  rw [settingUp_eq] at h
  obtain ⟨easy', hanonymous, hcredentials⟩ := Run.out_bind_eq_ok h
  exact ⟨easy', hanonymous, adds_credentialSteps (bare_anonymous hanonymous) hcredentials⟩

/-- What a request transfers. -/
def Impl.transfers (impl : Impl) (plat : Platform) (lib : Lib) (method : String) (path : Bytes)
    (body : Option Bytes) : List Easy :=
  (impl.request plat lib method path body).sent EasyEvent.performed?

/-- Without a handle nothing is transferred. -/
lemma request_of_not_init (hinit : lib.init = false) :
    impl.transfers plat lib method path body = [] ∧
      (impl.request plat lib method path body).out =
        .error (.stop (.thrown (.query (ascii "mongreldb: curl_easy_init failed")))) := by
  unfold Impl.transfers Impl.request
  rw [if_pos (by simp [hinit])]
  exact ⟨rfl, rfl⟩

/-- A setup that comes to an end is followed by the transfer. -/
lemma request_of_settingUp (hinit : lib.init = true)
    (h : (impl.settingUp lib method path body).out = .ok easy) :
    impl.transfers plat lib method path body = [easy] ∧
      (impl.request plat lib method path body).out =
        (afterTransfer plat (lib.perform easy).1 (lib.perform easy).2.1
          (lib.perform easy).2.2).mapError .stop := by
  have hnone : (impl.settingUp lib method path body).log.filterMap EasyEvent.performed? = [] :=
    sent_runSteps _
  unfold Impl.settingUp at h hnone
  unfold Impl.transfers Impl.request
  rw [if_neg (by simp [hinit]), Run.handle_ok h]
  refine ⟨?_, rfl⟩
  change (EasyEvent.init :: (_ ++ [.perform _, .getinfo, .freeAll _, .cleanup])).filterMap _ = _
  rw [List.filterMap_cons_none rfl, List.filterMap_append, hnone]
  rfl

/-- A setup that throws is not. -/
lemma request_of_throws (hinit : lib.init = true)
    (h : (impl.settingUp lib method path body).out = .error easy) :
    impl.transfers plat lib method path body = [] ∧
      (impl.request plat lib method path body).out = .error .badAlloc := by
  have hnone : (impl.settingUp lib method path body).log.filterMap EasyEvent.performed? = [] :=
    sent_runSteps _
  unfold Impl.settingUp at h hnone
  unfold Impl.transfers Impl.request
  rw [if_neg (by simp [hinit]), Run.handle_error h]
  obtain ⟨_ | nodes, o⟩ := easy
  · refine ⟨?_, rfl⟩
    change (EasyEvent.init :: (_ ++ [.cleanup])).filterMap _ = _
    rw [List.filterMap_cons_none rfl, List.filterMap_append, hnone]
    rfl
  · refine ⟨?_, rfl⟩
    change (EasyEvent.init :: (_ ++ [.freeAll _, .cleanup])).filterMap _ = _
    rw [List.filterMap_cons_none rfl, List.filterMap_append, hnone]
    rfl

lemma adds_of_transfers (h : easy ∈ impl.transfers plat lib method path body) :
    ∃ easy', impl.anonymous.transfers plat lib method path body = [easy'] ∧
      easy.Adds impl easy' := by
  cases hinit : lib.init with
  | false =>
    rw [(request_of_not_init hinit).1] at h
    cases h
  | true =>
    cases hset : (impl.settingUp lib method path body).out with
    | error easy =>
      rw [(request_of_throws hinit hset).1] at h
      cases h
    | ok easy =>
      rw [(request_of_settingUp hinit hset).1, List.mem_singleton] at h
      obtain ⟨easy', hanonymous, hadds⟩ := adds_of_settingUp hset
      exact ⟨easy', (request_of_settingUp hinit hanonymous).1, h ▸ hadds⟩

/-- The answer to the transfer is all that `request` makes its result of. -/
def Impl.answered (plat : Platform) (lib : Lib) (easy : Easy) : Except Failure Bytes :=
  let t := lib.perform easy
  (afterTransfer plat t.1 t.2.1 t.2.2).mapError .stop

lemma request_outcome (impl : Impl) (plat : Platform) (lib : Lib) (method : String) (path : Bytes)
    (body : Option Bytes) : (impl.request plat lib method path body).out =
      match impl.transfers plat lib method path body with
      | easy :: _ => Impl.answered plat lib easy
      | [] => if lib.init then .error .badAlloc
        else .error (.stop (.thrown (.query (ascii "mongreldb: curl_easy_init failed")))) := by
  cases hinit : lib.init with
  | false =>
    obtain ⟨htransfers, hout⟩ := request_of_not_init hinit
    rw [htransfers, hout]
    rfl
  | true =>
    cases hset : (impl.settingUp lib method path body).out with
    | error easy =>
      obtain ⟨htransfers, hout⟩ := request_of_throws hinit hset
      rw [htransfers, hout]
      rfl
    | ok easy =>
      obtain ⟨htransfers, hout⟩ := request_of_settingUp hinit hset
      rw [htransfers, hout]
      rfl

lemma adds_easyOf (impl : Impl) (r : Request) :
    (impl.easyOf r).Adds impl (impl.anonymous.easyOf r) where
  headers := by simp [Impl.easyOf, Impl.anonymous, Impl.bearer]
  userPwd := .inl rfl
  httpHeader _ := rfl
  options := rfl

/-- The answers do not depend on the credentials. -/
def Lib.Blind (lib : Lib) (impl : Impl) : Prop :=
  ∀ easy easy', easy.Adds impl easy' → lib.perform easy = lib.perform easy'

lemma request_blind (h : lib.Blind impl) :
    (impl.request plat lib method path body).out =
        (impl.anonymous.request plat lib method path body).out ∨
      (impl.request plat lib method path body).out = .error .badAlloc := by
  rw [request_outcome impl]
  cases htransfers : impl.transfers plat lib method path body with
  | cons easy l =>
    obtain ⟨easy', hanonymous, hadds⟩ := adds_of_transfers (htransfers ▸ List.mem_cons_self)
    left
    rw [request_outcome impl.anonymous, hanonymous]
    simp only [Impl.answered, h easy easy' hadds]
  | nil =>
    cases hinit : lib.init with
    | true => exact .inr rfl
    | false => exact .inl (request_of_not_init hinit).2.symm

lemma client_blind (h : lib.Blind impl) :
    impl.client plat lib = impl.anonymous.client plat lib := by
  unfold Impl.client
  congr 1
  funext r
  rw [h _ _ (adds_easyOf impl r)]

/-- Credentials go into the header that carries them and nowhere else. What is transferred is what
would be transferred without them but for that header, and the result is made from the answer alone;
so where the answers do not depend on the credentials, no request and no client does, unless
building the header runs out of memory. -/
theorem credentials_confined (impl : Impl) (plat : Platform) (lib : Lib) (method : String)
    (path : Bytes) (body : Option Bytes) :
    (∀ easy ∈ impl.transfers plat lib method path body,
      ∃ easy', impl.anonymous.transfers plat lib method path body = [easy'] ∧
        easy.Adds impl easy') ∧
    (impl.request plat lib method path body).out =
      (match impl.transfers plat lib method path body with
      | easy :: _ => Impl.answered plat lib easy
      | [] => if lib.init then .error .badAlloc
        else .error (.stop (.thrown (.query (ascii "mongreldb: curl_easy_init failed"))))) ∧
    (lib.Blind impl →
      ((impl.request plat lib method path body).out =
          (impl.anonymous.request plat lib method path body).out ∨
        (impl.request plat lib method path body).out = .error .badAlloc) ∧
      impl.client plat lib = impl.anonymous.client plat lib) :=
  ⟨fun _ h => adds_of_transfers h, request_outcome impl plat lib method path body,
    fun h => ⟨request_blind h, client_blind h⟩⟩

end MongrelDB
