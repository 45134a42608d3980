import Memorai.Text.Strings

/-! Providers, the accounts they vouch for, and what the gateway and the enclave say to each other about them. -/
namespace Memorai.Shared

inductive Provider where
  | google
  | gitHub
  deriving DecidableEq, Repr

namespace Provider

def parse (s : String) : Option Provider :=
  if s = "google" then some google else if s = "github" then some gitHub else none

def asStr : Provider → String
  | google => "google"
  | gitHub => "github"

/-- The data scopes asked for at consent time. -/
def scopes : Provider → List String
  | google => ["openid", "email", "https://www.googleapis.com/auth/gmail.readonly",
      "https://www.googleapis.com/auth/calendar.readonly"]
  | gitHub => ["read:user", "repo"]

def authorizeEndpoint : Provider → String
  | google => "https://accounts.google.com/o/oauth2/v2/auth"
  | gitHub => "https://github.com/login/oauth/authorize"

def scopeParam (provider : Provider) : String := Text.join " " provider.scopes

@[simp] theorem parse_asStr (provider : Provider) : parse provider.asStr = some provider := by
  cases provider <;> rfl

end Provider

/-- A verified account, wallet or domain. -/
inductive OAuthSignal where
  | google (subject email : String)
  | gitHub (subject login : String)
  | wallet (address : String)
  | domain (domain : String)
  deriving DecidableEq, Repr

inductive TrustTier where
  | none
  | google
  | googleGithub
  | googleGithubWallet
  | googleGithubWalletDomain
  deriving DecidableEq, Repr

def TrustTier.fromSignals (signals : List OAuthSignal) : TrustTier :=
  let hasGoogle := signals.any (fun s => s matches .google ..)
  let hasGithub := signals.any (fun s => s matches .gitHub ..)
  let hasWallet := signals.any (fun s => s matches .wallet ..)
  let hasDomain := signals.any (fun s => s matches .domain ..)
  match hasGoogle, hasGithub, hasWallet, hasDomain with
  | true, true, true, true => .googleGithubWalletDomain
  | true, true, true, false => .googleGithubWallet
  | true, true, false, _ => .googleGithub
  | true, false, _, _ => .google
  | _, _, _, _ => .none

structure OwnerIdentity where
  ownerId : String
  signals : List OAuthSignal
  trustTier : TrustTier
  deriving DecidableEq, Repr

structure IdentityVerifyRequest where
  googleToken : Option String
  githubToken : Option String
  walletSignature : Option String
  domainProof : Option String

structure IdentityVerifyResponse where
  identity : OwnerIdentity
  attestation : String

structure OAuthExchangeRequest where
  provider : String
  code : String
  redirectUri : String
  codeVerifier : String
  deriving DecidableEq, Repr

structure OAuthExchangeResponse where
  provider : String
  identity : OwnerIdentity
  sealedRefreshTokenB64 : Option String
  sealedKeyId : Option String
  sealScheme : Option String
  scopes : List String
  grantedAtMs : UInt64
  accessTokenExpiresAtMs : Option UInt64
  attestation : String
  deriving DecidableEq, Repr

end Memorai.Shared
