import MongrelDB.Contract.Operations

/-!
# The handle and the headers of a request

A request holds one easy handle and one list of headers. `Phase` is the discipline they are under:
the handle is initialised once and cleaned up once, at the end; its options are set before it
performs its one transfer, while the list is there, and it is asked for the status behind that; and
the list is freed at most once, as a whole. Every run of `request` keeps to it, whichever steps
fail, and what is left of the list when the handle is cleaned up is lost.
-/

namespace MongrelDB

open Text Traced

/-! ### The discipline -/

/-- What a request holds. -/
inductive Phase where
  | idle
  /-- a handle, and the nodes of the list -/
  | live (nodes : List Bytes)
  /-- the transfer is over -/
  | sent (nodes : List Bytes)
  | freed
  /-- the handle is gone, and these nodes were not freed -/
  | closed (lost : List Bytes)
  deriving DecidableEq

namespace Phase

/-- The next phase, if the event may happen in this one. -/
def next : Phase → EasyEvent → Option Phase
  | idle, .init => some (live [])
  | live nodes, .node text => some (live (nodes ++ [text]))
  | live nodes, .setopt _ => some (live nodes)
  | live nodes, .perform easy => if easy.headers.getD [] = nodes then some (sent nodes) else none
  | sent nodes, .getinfo => some (sent nodes)
  | live nodes, .freeAll nodes' => if nodes' = nodes then some freed else none
  | sent nodes, .freeAll nodes' => if nodes' = nodes then some freed else none
  | live nodes, .cleanup => some (closed nodes)
  | freed, .cleanup => some (closed [])
  | _, _ => none

/-- The phase after these events, if all of them may happen. -/
def after : Phase → List EasyEvent → Option Phase
  | p, [] => some p
  | p, e :: es => (p.next e).bind (·.after es)

@[simp] lemma after_nil (p : Phase) : p.after [] = some p := rfl

lemma after_append (p : Phase) (es es' : List EasyEvent) :
    p.after (es ++ es') = (p.after es).bind (·.after es') := by
  induction es generalizing p with
  | nil => rfl
  | cons e es ih =>
    simp only [List.cons_append, after]
    cases p.next e with
    | none => rfl
    | some q => exact ih q

end Phase

/-! ### Setting the transfer up -/

/-- The nodes that these events allocate. -/
def nodesOf (es : List EasyEvent) : List Bytes :=
  es.filterMap fun
    | .node text => some text
    | _ => none

/-- The nodes that no pointer leads to when the setup throws: an append that fails has made the list
null. -/
def lostIn (x : Run EasyEvent Easy Easy) : List Bytes :=
  match x.out with
  | .error ⟨none, _⟩ => nodesOf x.log
  | _ => []

/-- From a list with these nodes, nothing but nodes is allocated, and they are all in the list
unless it has been made null. -/
structure SetsUp (nodes : List Bytes) (x : Run EasyEvent Easy Easy) : Prop where
  after : (Phase.live nodes).after x.log = some (.live (nodes ++ nodesOf x.log))
  ok : ∀ easy, x.out = .ok easy → easy.headers.getD [] = nodes ++ nodesOf x.log
  error : ∀ easy, x.out = .error easy →
    easy.headers = none ∨ easy.headers = some (nodes ++ nodesOf x.log)

variable {lib : Lib} {k : Nat} {easy : Easy}

lemma setsUp_pure {nodes : List Bytes} (h : easy.headers.getD [] = nodes) :
    SetsUp nodes (pure easy) := by
  refine ⟨?_, ?_, by rintro _ ⟨⟩⟩
  · exact congrArg (some ∘ Phase.live) (List.append_nil nodes).symm
  · rintro _ ⟨⟩
    exact h.trans (List.append_nil nodes).symm

lemma SetsUp.bind {nodes : List Bytes} {x : Run EasyEvent Easy Easy}
    {f : Easy → Run EasyEvent Easy Easy} (hx : SetsUp nodes x)
    (hf : ∀ easy, x.out = .ok easy → SetsUp (easy.headers.getD []) (f easy)) :
    SetsUp nodes (x >>= f) := by
  change SetsUp nodes (Run.bind x f)
  cases ho : x.out with
  | error e =>
    have hb : Run.bind x f = ⟨x.log, .error e⟩ := by simp [Run.bind, ho]
    rw [hb]
    exact ⟨hx.after, by rintro _ ⟨⟩, by rintro _ ⟨⟩; exact hx.error e ho⟩
  | ok e =>
    have hb : Run.bind x f = ⟨x.log ++ (f e).log, (f e).out⟩ := by simp [Run.bind, ho]
    have hnodes : nodesOf (x.log ++ (f e).log) = nodesOf x.log ++ nodesOf (f e).log :=
      List.filterMap_append
    have he := hx.ok e ho
    obtain ⟨hafter, hok, herror⟩ := hf e ho
    rw [he, List.append_assoc, ← hnodes] at hafter hok herror
    rw [hb]
    refine ⟨?_, hok, herror⟩
    rw [Phase.after_append, hx.after]
    exact hafter

/-- Whether the option is taken or not, `request` goes on. -/
lemma EasyStep.exists_run_setopt (lib : Lib) (k : Nat) (easy : Easy) (option : EasyOption) :
    ∃ o, (EasyStep.setopt option).run lib k easy =
      ⟨[.setopt option], .ok { easy with options := o }⟩ := by
  simp only [EasyStep.run]
  cases lib.fails k || lib.refuses option
  · exact ⟨_, rfl⟩
  · exact ⟨easy.options, rfl⟩

/-- One step. -/
lemma setsUp_run (lib : Lib) (k : Nat) (easy : Easy) (s : EasyStep) :
    SetsUp (easy.headers.getD []) (s.run lib k easy) := by
  cases s with
  | append text =>
    simp only [EasyStep.run]
    cases lib.fails k with
    | true =>
      refine ⟨?_, by rintro _ ⟨⟩, by rintro _ ⟨⟩; exact .inl rfl⟩
      exact congrArg (some ∘ Phase.live) (List.append_nil _).symm
    | false => exact ⟨rfl, by rintro _ ⟨⟩; rfl, by rintro _ ⟨⟩⟩
  | concat =>
    simp only [EasyStep.run]
    cases lib.fails k with
    | true =>
      refine ⟨?_, by rintro _ ⟨⟩, ?_⟩
      · exact congrArg (some ∘ Phase.live) (List.append_nil _).symm
      · rintro _ ⟨⟩
        cases hh : easy.headers with
        | none => exact .inl rfl
        | some nodes => exact .inr (congrArg some (List.append_nil nodes).symm)
    | false => exact setsUp_pure rfl
  | setopt option =>
    obtain ⟨o, ho⟩ := EasyStep.exists_run_setopt lib k easy option
    rw [ho]
    refine ⟨?_, ?_, by rintro _ ⟨⟩⟩
    · exact congrArg (some ∘ Phase.live) (List.append_nil _).symm
    · rintro _ ⟨⟩
      exact (List.append_nil _).symm

lemma setsUp_runSteps (easy : Easy) (steps : List EasyStep) :
    SetsUp (easy.headers.getD []) (runSteps lib k easy steps) := by
  induction steps generalizing k easy with
  | nil => exact setsUp_pure rfl
  | cons s steps ih =>
    apply (setsUp_run lib k easy s).bind
    intro easy' _
    exact ih easy'

/-! ### Requests -/

variable {impl : Impl} {plat : Platform} {method : String} {path : Bytes} {body : Option Bytes}

/-- What the setup leads to. -/
def Impl.settingUp (impl : Impl) (lib : Lib) (method : String) (path : Bytes)
    (body : Option Bytes) : Run EasyEvent Easy Easy :=
  runSteps lib 0 {} (impl.setup method (impl.urlOf path) body)

/-- Whatever fails, a request keeps to the discipline. -/
lemma after_request (hinit : lib.init = true) :
    Phase.idle.after (impl.request plat lib method path body).log =
      some (.closed (lostIn (impl.settingUp lib method path body))) := by
  have hset : SetsUp [] (impl.settingUp lib method path body) := setsUp_runSteps {} _
  unfold Impl.request
  rw [if_neg (by simp [hinit])]
  change (Phase.live []).after (Run.handle (impl.settingUp lib method path body) _ _).log = _
  generalize impl.settingUp lib method path body = x at hset ⊢
  obtain ⟨hafter, hok, herror⟩ := hset
  unfold Run.handle
  rw [Phase.after_append, hafter]
  change Phase.after (.live (nodesOf x.log)) _ = _
  cases ho : x.out with
  | error easy =>
    obtain ⟨headers, options⟩ := easy
    have hlist : headers = none ∨ headers = some (nodesOf x.log) := herror _ ho
    rcases hlist with rfl | rfl
    · simp only [lostIn, ho]
      rfl
    · simp only [lostIn, ho]
      change Phase.after _ [.freeAll (nodesOf x.log), .cleanup] = _
      simp [Phase.after, Phase.next]
  | ok easy =>
    have hlist : easy.headers.getD [] = nodesOf x.log := hok _ ho
    simp only [lostIn, ho, hlist]
    change Phase.after _ [.perform easy, .getinfo, .freeAll (nodesOf x.log), .cleanup] = _
    simp [Phase.after, Phase.next, hlist]

/-! ### What is lost -/

/-- Options are no reason to stop. -/
lemma exists_runSteps_options (lib : Lib) (k : Nat) (easy : Easy) (opts : List EasyOption)
    (steps : List EasyStep) : ∃ o, runSteps lib k easy (opts.map EasyStep.setopt ++ steps) =
      ⟨opts.map .setopt ++ (runSteps lib (k + opts.length) { easy with options := o } steps).log,
        (runSteps lib (k + opts.length) { easy with options := o } steps).out⟩ := by
  induction opts generalizing k easy with
  | nil => exact ⟨easy.options, rfl⟩
  | cons option opts ih =>
    obtain ⟨o, ho⟩ := EasyStep.exists_run_setopt lib k easy option
    obtain ⟨o', h⟩ := ih (k + 1) { easy with options := o }
    refine ⟨o', ?_⟩
    rw [List.map_cons, List.cons_append, runSteps, ho, List.length_cons, ← Nat.add_assoc,
      Nat.add_right_comm]
    change Run.bind _ _ = _
    simp only [Run.bind, h]
    rfl

lemma nodesOf_setopt (opts : List EasyOption) : nodesOf (opts.map .setopt) = [] := by
  induction opts with
  | nil => rfl
  | cons option opts ih => exact ih

lemma lostIn_of_kept {es : List EasyEvent} {r : Except Easy Easy}
    (h : ∀ o, r ≠ .error ⟨none, o⟩) : lostIn ⟨es, r⟩ = [] := by
  rcases r with ⟨_ | nodes, o⟩ | easy
  · exact absurd rfl (h o)
  · rfl
  · rfl

/-- With the headers in the list, it is lost exactly if the append of the bearer token fails. -/
lemma runSteps_credentials (impl : Impl) (lib : Lib) (n : Nat) (nodes : List Bytes)
    (o : EasyOptions) :
    if impl.token ≠ [] ∧ lib.fails n = false ∧ lib.fails (n + 1) = true then
      ∃ o', runSteps lib n ⟨some nodes, o⟩ impl.credentialSteps = ⟨[], .error ⟨none, o'⟩⟩
    else ∀ o', (runSteps lib n ⟨some nodes, o⟩ impl.credentialSteps).out ≠ .error ⟨none, o'⟩ := by
  -- only the header of a token is appended to the list
  cases htoken : impl.token with
  | cons c token =>
    have hsteps : impl.credentialSteps =
        [.concat, .append (cstr (ascii "Authorization: Bearer " ++ impl.token)),
          .setopt .httpHeader] := if_pos (by simp [htoken])
    simp only [hsteps, runSteps, EasyStep.run]
    cases hconcat : lib.fails n with
    | true => exact (if_neg (by simp)).mpr fun o h => by cases h
    | false =>
      cases happend : lib.fails (n + 1) with
      | true => exact (if_pos (by simp)).mpr ⟨o, rfl⟩
      | false =>
        apply (if_neg (by simp)).mpr
        intro o h
        cases hopt : lib.fails (n + 1 + 1) || lib.refuses .httpHeader <;> rw [hopt] at h <;> cases h
  | nil =>
    apply (if_neg (by simp)).mpr
    intro o h
    cases husername : impl.username with
    | nil =>
      have hsteps : impl.credentialSteps = [] := by simp [Impl.credentialSteps, htoken, husername]
      rw [hsteps] at h
      cases h
    | cons c username =>
      have hsteps : impl.credentialSteps =
          [.concat, .setopt (.userPwd (cstr (impl.username ++ colon :: impl.password))),
            .setopt .httpAuthBasic] := by
        simp [Impl.credentialSteps, htoken, husername]
      simp only [hsteps, runSteps, EasyStep.run] at h
      cases hconcat : lib.fails n with
      | true =>
        rw [hconcat] at h
        cases h
      | false =>
        rw [hconcat] at h
        generalize (lib.fails (n + 1) || lib.refuses _) = pwdRefused at h
        generalize (lib.fails (n + 1 + 1) || lib.refuses _) = authRefused at h
        cases pwdRefused <;> cases authRefused <;> cases h

/-- The nodes in front of an append that fails. -/
def Impl.lost (impl : Impl) (fails : Nat → Bool) : Option Bytes → List Bytes
  | none =>
    if fails 0 = false ∧ impl.token ≠ [] ∧ fails 10 = false ∧ fails 11 = true then
      [ascii "Accept: application/json"]
    else []
  | some _ =>
    if fails 0 then []
    else if fails 1 then [ascii "Accept: application/json"]
    else if impl.token ≠ [] ∧ fails 13 = false ∧ fails 14 = true then
      [ascii "Accept: application/json", ascii "Content-Type: application/json"]
    else []

/-- What is lost after the headers `texts`. -/
lemma lostIn_credentials (impl : Impl) (lib : Lib) (k : Nat) (texts : List Bytes) (o : EasyOptions)
    (opts : List EasyOption) :
    lostIn ⟨texts.map .node ++ (runSteps lib k ⟨some texts, o⟩
        (opts.map EasyStep.setopt ++ impl.credentialSteps)).log,
      (runSteps lib k ⟨some texts, o⟩
        (opts.map EasyStep.setopt ++ impl.credentialSteps)).out⟩ =
      if impl.token ≠ [] ∧ lib.fails (k + opts.length) = false ∧
        lib.fails (k + opts.length + 1) = true then texts else [] := by
  obtain ⟨o₁, ho₁⟩ := exists_runSteps_options lib k ⟨some texts, o⟩ opts impl.credentialSteps
  have h := runSteps_credentials impl lib (k + opts.length) texts o₁
  rw [ho₁]
  split_ifs at h ⊢ with hlost
  · obtain ⟨o₂, ho₂⟩ := h
    have htexts : nodesOf (texts.map .node) = texts := by
      unfold nodesOf
      rw [List.filterMap_map]
      exact List.filterMap_some
    simp only [ho₂, List.append_nil]
    change nodesOf (texts.map .node ++ opts.map .setopt) = texts
    rw [nodesOf, List.filterMap_append, ← nodesOf, ← nodesOf, htexts, nodesOf_setopt,
      List.append_nil]
  · exact lostIn_of_kept h

lemma lostIn_settingUp :
    lostIn (impl.settingUp lib method path body) = impl.lost lib.fails body := by
  unfold Impl.settingUp Impl.setup
  rw [List.append_assoc]
  cases body with
  | none =>
    cases h0 : lib.fails 0 with
    | true =>
      simp only [Impl.headerSteps, Impl.lost, List.cons_append, runSteps, EasyStep.run, h0]
      rfl
    | false =>
      simp only [Impl.headerSteps, Impl.lost, List.cons_append, runSteps, EasyStep.run, h0,
        true_and]
      exact lostIn_credentials impl lib 1 [ascii "Accept: application/json"] {}
        (impl.options method (impl.urlOf path) ++ Impl.bodyOptions none)
  | some body =>
    cases h0 : lib.fails 0 with
    | true =>
      simp only [Impl.headerSteps, Impl.lost, List.cons_append, runSteps, EasyStep.run, h0]
      rfl
    | false =>
      cases h1 : lib.fails 1 with
      | true =>
        simp only [Impl.headerSteps, Impl.lost, List.cons_append, runSteps, EasyStep.run, h0, h1]
        rfl
      | false =>
        simp only [Impl.headerSteps, Impl.lost, List.cons_append, runSteps, EasyStep.run, h0, h1]
        exact lostIn_credentials impl lib 2
          [ascii "Accept: application/json", ascii "Content-Type: application/json"] {}
          (impl.options method (impl.urlOf path) ++ Impl.bodyOptions (some body))

/-- Every run of a request keeps to the discipline of the handle and of the list. It is over when
the handle is cleaned up, and the nodes that are lost are those in front of an append that fails
with a list that is not empty. -/
theorem request_handles (impl : Impl) (plat : Platform) (lib : Lib) (method : String) (path : Bytes)
    (body : Option Bytes) :
    Phase.idle.after (impl.request plat lib method path body).log =
      some (if lib.init then .closed (impl.lost lib.fails body) else .idle) := by
  cases hinit : lib.init with
  | false =>
    unfold Impl.request
    rw [if_pos (by simp [hinit])]
    rfl
  | true =>
    rw [after_request hinit, lostIn_settingUp]
    rfl

/-! ### Requests that nothing stops -/

/-- `INT_MAX / 1000`: libcurl keeps a time-out as an `int` of milliseconds. -/
def maxTimeout : Int := 2147483

/-- A time-out that libcurl refuses. -/
def EasyOption.tooLong : EasyOption → Bool
  | timeout seconds | connectTimeout seconds => maxTimeout < seconds
  | _ => false

/-- Of the options that these steps set, libcurl refuses the time-outs that are too long, and no
others. -/
def Lib.RefusesTimeouts (lib : Lib) (steps : List EasyStep) : Prop :=
  ∀ option, .setopt option ∈ steps → lib.refuses option = option.tooLong

/-- The transfer that carries the request. A time-out that is refused leaves libcurl with its
default ones: none for the transfer, and 300 seconds for the connection. -/
def Impl.easyOf (impl : Impl) (r : Request) : Easy where
  headers := some ([ascii "Accept: application/json"] ++
    (if r.body.isSome then [ascii "Content-Type: application/json"] else []) ++
    if impl.token = [] then [] else [cstr (ascii "Authorization: Bearer " ++ impl.token)])
  options :=
    { url := cstr r.url
      customRequest := r.method
      httpHeader := true
      writeFunction := true
      writeData := true
      timeout := if maxTimeout < impl.timeoutSeconds then 0 else impl.timeoutSeconds
      connectTimeout := if maxTimeout < impl.timeoutSeconds then 300 else impl.timeoutSeconds
      noSignal := true
      maxFileSizeLarge := kMaxResponseBytes
      postFields := r.body
      postFieldSize := r.body.elim (-1) fun body => body.length
      userPwd := if impl.token = [] ∧ impl.username ≠ [] then
        some (cstr (impl.username ++ colon :: impl.password)) else none
      httpAuth := true }

/-- The client that the handles of libcurl amount to. -/
def Impl.client (impl : Impl) (plat : Platform) (lib : Lib) : Client where
  plat := plat
  baseUrl := impl.baseUrl
  curl r :=
    if lib.init then
      let t := lib.perform (impl.easyOf r)
      .performed t.1 t.2.1 t.2.2
    else .initFailed

/-- The transfer that an event performs. -/
def EasyEvent.performed? : EasyEvent → Option Easy
  | .perform easy => some easy
  | _ => none

/-- What an option does that may be refused for its value. -/
def EasyOption.effect (o : EasyOptions) (option : EasyOption) : EasyOptions :=
  if option.tooLong then o else option.set o

/-- What a step does that has the memory it needs. -/
def EasyStep.effect (easy : Easy) : EasyStep → Easy
  | append text => { easy with headers := some (easy.headers.getD [] ++ [text]) }
  | concat => easy
  | setopt option => { easy with options := option.effect easy.options }

lemma out_runSteps {steps : List EasyStep} (hfails : ∀ k, lib.fails k = false)
    (hrefuses : lib.RefusesTimeouts steps) :
    (runSteps lib k easy steps).out = .ok (steps.foldl EasyStep.effect easy) := by
  induction steps generalizing k easy with
  | nil => rfl
  | cons s steps ih =>
    have hstep : (s.run lib k easy).out = .ok (s.effect easy) := by
      cases s with
      | append text | concat => simp only [EasyStep.run, hfails k]; rfl
      | setopt option =>
        simp only [EasyStep.run, hfails k, hrefuses option List.mem_cons_self, EasyStep.effect,
          EasyOption.effect]
        cases option.tooLong <;> rfl
    rw [runSteps, Run.out_bind_ok hstep,
      ih fun option hoption => hrefuses option (List.mem_cons_of_mem _ hoption)]
    rfl

lemma sent_runSteps (steps : List EasyStep) :
    (runSteps lib k easy steps).sent EasyEvent.performed? = [] := by
  induction steps generalizing k easy with
  | nil => rfl
  | cons s steps ih =>
    rw [runSteps, Run.sent_bind fun _ => ih]
    cases s with
    | append text | concat => simp only [EasyStep.run]; cases lib.fails k <;> rfl
    | setopt option =>
      obtain ⟨o, ho⟩ := EasyStep.exists_run_setopt lib k easy option
      rw [ho]
      rfl

lemma foldl_setopt (opts : List EasyOption) (o : EasyOptions) (headers : Option (List Bytes)) :
    (opts.map EasyStep.setopt).foldl EasyStep.effect ⟨headers, o⟩ =
      ⟨headers, opts.foldl EasyOption.effect o⟩ := by
  induction opts generalizing o with
  | nil => rfl
  | cons option opts ih => exact ih _

/-- The options that every request has. -/
lemma foldl_options (impl : Impl) (method : String) (url : Bytes) :
    (impl.options method url).foldl EasyOption.effect {} =
      { url := cstr url
        customRequest := ascii method
        httpHeader := true
        writeFunction := true
        writeData := true
        timeout := if maxTimeout < impl.timeoutSeconds then 0 else impl.timeoutSeconds
        connectTimeout := if maxTimeout < impl.timeoutSeconds then 300 else impl.timeoutSeconds
        noSignal := true
        maxFileSizeLarge := kMaxResponseBytes } := by
  unfold Impl.options
  simp only [List.foldl_cons, List.foldl_nil, EasyOption.effect, EasyOption.tooLong,
    decide_eq_true_eq]
  by_cases h : maxTimeout < impl.timeoutSeconds
  · simp only [if_pos h]
    rfl
  · simp only [if_neg h]
    rfl

/-- The setup makes the transfer that carries the request. -/
lemma foldl_setup : (impl.setup method (impl.urlOf path) body).foldl EasyStep.effect {} =
    impl.easyOf ((impl.client plat lib).requestOf method path body) := by
  have hheaders : (Impl.headerSteps body).foldl EasyStep.effect {} =
      ⟨some ([ascii "Accept: application/json"] ++
        if body.isSome then [ascii "Content-Type: application/json"] else []), {}⟩ := by
    cases body <;> rfl
  unfold Impl.setup
  rw [List.foldl_append, List.foldl_append, hheaders, foldl_setopt, List.foldl_append,
    foldl_options]
  unfold Impl.credentialSteps Impl.easyOf
  cases htoken : impl.token with
  | cons c token => cases body <;> rfl
  | nil =>
    cases husername : impl.username with
    | cons c username => cases body <;> rfl
    | nil => cases body <;> rfl

lemma runs_of_fails (hfails : ∀ k, lib.fails k = false)
    (hrefuses : lib.RefusesTimeouts (impl.setup method (impl.urlOf path) body)) :
    (impl.settingUp lib method path body).out =
      .ok (impl.easyOf ((impl.client plat lib).requestOf method path body)) := by
  rw [← foldl_setup]
  exact out_runSteps hfails hrefuses

/-- When nothing fails, `request` is the call of the client that knows nothing of handles. -/
lemma request_eq_client (impl : Impl) (plat : Platform) (lib : Lib) (method : String) (path : Bytes)
    (body : Option Bytes) (hfails : ∀ k, lib.fails k = false)
    (hrefuses : lib.RefusesTimeouts (impl.setup method (impl.urlOf path) body)) :
    (impl.request plat lib method path body).out =
        ((impl.client plat lib).request method path body).out.mapError .stop ∧
      (impl.request plat lib method path body).sent EasyEvent.performed? =
        (((impl.client plat lib).request method path body).sent Event.request?).map
          impl.easyOf := by
  rw [out_request, sent_request]
  have hset : (impl.settingUp lib method path body).out =
      .ok (impl.easyOf ((impl.client plat lib).requestOf method path body)) :=
    runs_of_fails hfails hrefuses
  unfold Impl.request
  cases hinit : lib.init with
  | false =>
    rw [if_pos (by simp)]
    have hcurl : ∀ r, (impl.client plat lib).curl r = .initFailed :=
      fun r => if_neg (by simp [hinit])
    simp only [hcurl]
    exact ⟨rfl, rfl⟩
  | true =>
    rw [if_neg (by simp)]
    have hcurl : ∀ r, (impl.client plat lib).curl r = .performed (lib.perform (impl.easyOf r)).1
        (lib.perform (impl.easyOf r)).2.1 (lib.perform (impl.easyOf r)).2.2 :=
      fun r => if_pos hinit
    simp only [hcurl]
    have hnone : (runSteps lib 0 {} (impl.setup method (impl.urlOf path) body)).log.filterMap
        EasyEvent.performed? = [] := sent_runSteps _
    unfold Impl.settingUp at hset
    rw [Run.handle_ok hset]
    refine ⟨rfl, ?_⟩
    change (EasyEvent.init :: (_ ++ [.perform _, .getinfo, .freeAll _, .cleanup])).filterMap _ =
      [impl.easyOf _]
    rw [List.filterMap_cons_none rfl, List.filterMap_append, hnone]
    rfl

/-! ### Clients that are built -/

/-- The clients that the constructors and `set_timeout` make. -/
inductive Impl.Built : Impl → Prop where
  | ofUrl (url : Bytes) : Built (ofUrl url)
  | ofToken (url token : Bytes) : Built (ofToken url token)
  | ofBasicAuth (url username password : Bytes) : Built (ofBasicAuth url username password)
  | setTimeout {impl : Impl} (seconds : Int) : Built impl → Built (impl.setTimeout seconds)

lemma Impl.Built.timeout_pos (h : impl.Built) : 0 < impl.timeoutSeconds := by
  induction h with
  | ofUrl | ofToken | ofBasicAuth =>
    change (0 : Int) < 30
    decide
  | @setTimeout impl seconds _ _ =>
    change 0 < if seconds > 0 then seconds else 30
    split_ifs with hpos
    · exact hpos
    · decide

lemma Impl.Built.oneCredential (h : impl.Built) : impl.token = [] ∨ impl.username = [] := by
  induction h with
  | ofUrl => exact .inl rfl
  | ofToken => exact .inr rfl
  | ofBasicAuth => exact .inl rfl
  | setTimeout seconds _ ih => exact ih

/-- The transfer of a client is limited: in time if libcurl takes the time-out of the client, in the
time to connect and in size in any case; and it is not given two kinds of credentials. -/
structure Easy.Guarded (impl : Impl) (easy : Easy) : Prop where
  timeout : 0 < easy.options.timeout ↔ impl.timeoutSeconds ≤ maxTimeout
  connectTimeout_pos : 0 < easy.options.connectTimeout
  limit : easy.options.maxFileSizeLarge = kMaxResponseBytes
  oneCredential : easy.options.userPwd = none ∨
    ∀ text ∈ easy.headers.getD [], (ascii "Authorization:").isPrefixOf text = false

lemma Impl.Built.guarded (h : impl.Built) (r : Request) : (impl.easyOf r).Guarded impl := by
  have hpos := h.timeout_pos
  refine ⟨?_, ?_, rfl, ?_⟩
  · simp only [easyOf]
    split_ifs <;> omega
  · simp only [easyOf]
    split_ifs <;> omega
  rcases h.oneCredential with htoken | husername
  · right
    intro text htext
    simp only [easyOf, if_pos htoken, Option.getD_some, List.append_nil, List.mem_append,
      List.mem_singleton] at htext
    rcases htext with rfl | htext
    · decide
    · split_ifs at htext
      · obtain rfl := List.mem_singleton.mp htext
        decide
      · cases htext
  · left
    simp [easyOf, husername]

/-- When nothing runs out of memory, and libcurl refuses nothing but time-outs that are too long,
`request` is the call of the client that knows nothing of handles: it returns or throws the same,
and for the request that is sent one transfer is performed, which carries it. Whatever the client
was built from, that transfer is limited in size and in the time to connect, and given at most one
kind of credentials; and it is limited in time exactly if the time-out of the client is one that
libcurl takes. -/
theorem request_refines (impl : Impl) (hbuilt : impl.Built) (plat : Platform) (lib : Lib)
    (hfails : ∀ k, lib.fails k = false) (method : String) (path : Bytes) (body : Option Bytes)
    (hrefuses : lib.RefusesTimeouts (impl.setup method (impl.urlOf path) body)) :
    (impl.request plat lib method path body).out =
        ((impl.client plat lib).request method path body).out.mapError .stop ∧
      (impl.request plat lib method path body).sent EasyEvent.performed? =
        (((impl.client plat lib).request method path body).sent Event.request?).map impl.easyOf ∧
      ∀ easy ∈ (impl.request plat lib method path body).sent EasyEvent.performed?,
        easy.Guarded impl := by
  obtain ⟨hout, hsent⟩ := request_eq_client impl plat lib method path body hfails hrefuses
  refine ⟨hout, hsent, fun easy heasy => ?_⟩
  rw [hsent, List.mem_map] at heasy
  obtain ⟨r, -, rfl⟩ := heasy
  exact hbuilt.guarded r

/-- A daemon that answers with an empty object, and enough memory. -/
def quietLib : Lib :=
  ⟨true, fun _ => false, EasyOption.tooLong, fun _ => (.ok, 200, ascii "\x7b\x7d")⟩

/-- With a time-out of `seconds`, a client that asks for the health of the daemon performs one
transfer, which is limited in time exactly if libcurl takes that time-out. -/
theorem request_refines_health :
    let impl (seconds : Int) :=
      (Impl.ofToken (ascii "http://localhost:8453//") (ascii "secret")).setTimeout seconds
    let plat : Platform := ⟨fun _ => [], fun _ => 0, fun _ => 0⟩
    let transfers (seconds : Int) :=
      ((impl seconds).request plat quietLib "GET" (ascii "/health") none).sent EasyEvent.performed?
    (∃ easy, transfers 60 = [easy] ∧ 0 < easy.options.timeout) ∧
      ∃ easy, transfers 2147484 = [easy] ∧ ¬0 < easy.options.timeout := by
  intro impl plat transfers
  have hrefines := fun seconds => request_refines (impl seconds) (.setTimeout _ (.ofToken _ _)) plat
    quietLib (fun _ => rfl) "GET" (ascii "/health") none fun _ _ => rfl
  have hguarded : ∀ seconds, ∃ easy, transfers seconds = [easy] ∧ easy.Guarded (impl seconds) := by
    intro seconds
    obtain ⟨-, hsent, hguarded⟩ := hrefines seconds
    exact ⟨_, hsent, hguarded _ (hsent ▸ List.mem_singleton_self _)⟩
  constructor
  · obtain ⟨easy, heasy, h⟩ := hguarded 60
    exact ⟨easy, heasy, h.timeout.mpr (by decide)⟩
  · obtain ⟨easy, heasy, h⟩ := hguarded 2147484
    exact ⟨easy, heasy, fun hpos => absurd (h.timeout.mp hpos) (by decide)⟩

end MongrelDB
