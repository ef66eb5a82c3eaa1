import Sglang.Diffusion.Capacity
import Sglang.Dllm.JointThreshold
import Sglang.Dllm.KvAccounting
import Sglang.Dllm.Lossless
import Sglang.Dllm.Reveal
import Sglang.Gateway.Policies
import Sglang.Gateway.RegistryIndexes
import Sglang.Lora.LoraBatches
import Sglang.Managers.HiSparse
import Sglang.Managers.IgnoreEos
import Sglang.Managers.OverlapSpec
import Sglang.Managers.RequestPlaces
import Sglang.Managers.Retraction
import Sglang.Managers.StopStrings
import Sglang.Managers.StreamedText
import Sglang.Managers.TokenizerLedger
import Sglang.MemCache.HiRadixNamespaces
import Sglang.MemCache.HostMemory
import Sglang.Ngram.TrieRuns
import Sglang.Sampling.StopRegex
import Sglang.Session.Exclusive
import Sglang.Speculative.GrammarVerify
