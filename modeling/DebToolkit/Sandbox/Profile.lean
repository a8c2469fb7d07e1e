import DebToolkit.Seccomp

/-!
# The profile for maintainer scripts

`maintainer_script_profile` names the system calls that a script may make. `socket` is not among them: it
has two rules of its own, for the two local address families.

* `socket_not_mem_allowed`: the lists do not contain `socket`;
* `allows_named`: no rule is for a call that is not named;
* `allows_socket`: of the calls to `socket`, the rules are for those of the two local families.
-/

namespace DebToolkit.Scripts

open Bpf

/-! ### The calls by name -/

/-- The system calls that the profile names. -/
inductive Syscall
  | SYS_read | SYS_write | SYS_readv | SYS_writev | SYS_pread64 | SYS_pwrite64 | SYS_openat
  | SYS_close | SYS_close_range | SYS_lseek | SYS_ftruncate | SYS_truncate | SYS_fstat
  | SYS_newfstatat | SYS_statx | SYS_faccessat | SYS_faccessat2 | SYS_dup | SYS_dup3 | SYS_fcntl
  | SYS_ioctl | SYS_pipe2 | SYS_ppoll | SYS_pselect6 | SYS_getpid | SYS_getppid | SYS_gettid
  | SYS_getuid | SYS_geteuid | SYS_getgid | SYS_getegid | SYS_getgroups | SYS_getcwd | SYS_chdir
  | SYS_fchdir | SYS_mkdirat | SYS_unlinkat | SYS_renameat2 | SYS_symlinkat | SYS_linkat
  | SYS_readlinkat | SYS_fchmod | SYS_fchmodat | SYS_fchown | SYS_fchownat | SYS_umask
  | SYS_utimensat | SYS_mknodat | SYS_mount | SYS_umount2 | SYS_clone | SYS_clone3 | SYS_execve
  | SYS_execveat | SYS_wait4 | SYS_waitid | SYS_exit | SYS_exit_group | SYS_kill | SYS_tgkill
  | SYS_tkill | SYS_rt_sigaction | SYS_rt_sigprocmask | SYS_rt_sigreturn | SYS_sigaltstack
  | SYS_nanosleep | SYS_clock_nanosleep | SYS_clock_gettime | SYS_clock_getres | SYS_gettimeofday
  | SYS_getrlimit | SYS_setrlimit | SYS_prlimit64 | SYS_prctl | SYS_personality
  | SYS_set_tid_address | SYS_set_robust_list | SYS_get_robust_list | SYS_futex | SYS_mmap
  | SYS_munmap | SYS_mprotect | SYS_mremap | SYS_madvise | SYS_brk | SYS_mlock | SYS_munlock
  | SYS_getdents64 | SYS_getcpu | SYS_getrusage | SYS_restart_syscall | SYS_rseq | SYS_fadvise64
  | SYS_mincore | SYS_msync | SYS_sched_yield | SYS_sched_getaffinity | SYS_sched_setaffinity
  | SYS_getpriority | SYS_setpriority | SYS_capget | SYS_capset | SYS_getrandom | SYS_memfd_create
  | SYS_eventfd2 | SYS_epoll_create1 | SYS_epoll_ctl | SYS_epoll_pwait | SYS_timerfd_create
  | SYS_timerfd_settime | SYS_timerfd_gettime | SYS_signalfd4 | SYS_socketpair | SYS_bind
  | SYS_connect | SYS_listen | SYS_accept | SYS_accept4 | SYS_getsockname | SYS_getpeername
  | SYS_sendto | SYS_recvfrom | SYS_sendmsg | SYS_recvmsg | SYS_getsockopt | SYS_setsockopt
  | SYS_shutdown | SYS_open | SYS_stat | SYS_lstat | SYS_access | SYS_chmod | SYS_chown
  | SYS_lchown | SYS_link | SYS_mkdir | SYS_mknod | SYS_rename | SYS_rmdir | SYS_symlink
  | SYS_unlink | SYS_utime | SYS_utimes | SYS_dup2 | SYS_pipe | SYS_poll | SYS_select
  | SYS_getdents | SYS_epoll_wait | SYS_fork | SYS_vfork | SYS_pause | SYS_time | SYS_arch_prctl
  | SYS_socket
  deriving DecidableEq

/-- Calls of the same name on every architecture. -/
def common : List Syscall :=
  [.SYS_read, .SYS_write, .SYS_readv, .SYS_writev, .SYS_pread64, .SYS_pwrite64, .SYS_openat,
   .SYS_close, .SYS_close_range, .SYS_lseek, .SYS_ftruncate, .SYS_truncate, .SYS_fstat,
   .SYS_newfstatat, .SYS_statx, .SYS_faccessat, .SYS_faccessat2, .SYS_dup, .SYS_dup3, .SYS_fcntl,
   .SYS_ioctl, .SYS_pipe2, .SYS_ppoll, .SYS_pselect6, .SYS_getpid, .SYS_getppid, .SYS_gettid,
   .SYS_getuid, .SYS_geteuid, .SYS_getgid, .SYS_getegid, .SYS_getgroups, .SYS_getcwd, .SYS_chdir,
   .SYS_fchdir, .SYS_mkdirat, .SYS_unlinkat, .SYS_renameat2, .SYS_symlinkat, .SYS_linkat,
   .SYS_readlinkat, .SYS_fchmod, .SYS_fchmodat, .SYS_fchown, .SYS_fchownat, .SYS_umask,
   .SYS_utimensat, .SYS_mknodat, .SYS_mount, .SYS_umount2, .SYS_clone, .SYS_clone3, .SYS_execve,
   .SYS_execveat, .SYS_wait4, .SYS_waitid, .SYS_exit, .SYS_exit_group, .SYS_kill, .SYS_tgkill,
   .SYS_tkill, .SYS_rt_sigaction, .SYS_rt_sigprocmask, .SYS_rt_sigreturn, .SYS_sigaltstack,
   .SYS_nanosleep, .SYS_clock_nanosleep, .SYS_clock_gettime, .SYS_clock_getres, .SYS_gettimeofday,
   .SYS_getrlimit, .SYS_setrlimit, .SYS_prlimit64, .SYS_prctl, .SYS_personality,
   .SYS_set_tid_address, .SYS_set_robust_list, .SYS_get_robust_list, .SYS_futex, .SYS_mmap,
   .SYS_munmap, .SYS_mprotect, .SYS_mremap, .SYS_madvise, .SYS_brk, .SYS_mlock, .SYS_munlock,
   .SYS_getdents64, .SYS_getcpu, .SYS_getrusage, .SYS_restart_syscall, .SYS_rseq, .SYS_fadvise64,
   .SYS_mincore, .SYS_msync, .SYS_sched_yield, .SYS_sched_getaffinity, .SYS_sched_setaffinity,
   .SYS_getpriority, .SYS_setpriority, .SYS_capget, .SYS_capset, .SYS_getrandom,
   .SYS_memfd_create, .SYS_eventfd2, .SYS_epoll_create1, .SYS_epoll_ctl, .SYS_epoll_pwait,
   .SYS_timerfd_create, .SYS_timerfd_settime, .SYS_timerfd_gettime, .SYS_signalfd4,
   .SYS_socketpair, .SYS_bind, .SYS_connect, .SYS_listen, .SYS_accept, .SYS_accept4,
   .SYS_getsockname, .SYS_getpeername, .SYS_sendto, .SYS_recvfrom, .SYS_sendmsg, .SYS_recvmsg,
   .SYS_getsockopt, .SYS_setsockopt, .SYS_shutdown]

/-- Older calls, of x86 only. -/
def legacy : List Syscall :=
  [.SYS_open, .SYS_stat, .SYS_lstat, .SYS_access, .SYS_chmod, .SYS_chown, .SYS_lchown, .SYS_link,
   .SYS_mkdir, .SYS_mknod, .SYS_rename, .SYS_rmdir, .SYS_symlink, .SYS_unlink, .SYS_utime,
   .SYS_utimes, .SYS_dup2, .SYS_pipe, .SYS_poll, .SYS_select, .SYS_getdents, .SYS_epoll_wait,
   .SYS_fork, .SYS_vfork, .SYS_pause, .SYS_time, .SYS_arch_prctl]

/-- The constants of the C library. -/
structure Libc where
  /-- The library is one for x86 or x86-64. -/
  x86 : Bool
  number : Syscall → BitVec 64
  afUnix : BitVec 64
  afNetlink : BitVec 64
  eperm : BitVec 16

/-- The calls that are allowed whatever their arguments. -/
def Libc.allowed (libc : Libc) : List Syscall := common ++ if libc.x86 then legacy else []

def maintainerScriptProfile (libc : Libc) : SeccompProfile where
  enabled := true
  action := .errno libc.eperm
  rules := (libc.allowed.map fun call => .allowSyscall (libc.number call)) ++
    [.allowSyscallIfArg (libc.number .SYS_socket) 0 libc.afUnix,
      .allowSyscallIfArg (libc.number .SYS_socket) 0 libc.afNetlink]

/-! ### What the rules are for -/

/-- The packet is for this call, as far as the low 32 bits of its number tell. -/
def Libc.IsCall (libc : Libc) (call : Syscall) (d : SeccompData) : Prop :=
  (libc.number call).toNat % 2 ^ 32 = d.nr.toNat

/-- What the C library and the kernel promise: different calls have different numbers, which the low 32
bits tell apart. -/
def Libc.Distinct (libc : Libc) : Prop :=
  ∀ call ∈ .SYS_socket :: libc.allowed, ∀ call' ∈ .SYS_socket :: libc.allowed,
    (libc.number call).toNat % 2 ^ 32 = (libc.number call').toNat % 2 ^ 32 → call = call'

variable {libc : Libc} {d : SeccompData}

/-- **`socket` is not on the lists.** -/
theorem socket_not_mem_allowed : .SYS_socket ∉ libc.allowed := by
  have hcommon : .SYS_socket ∉ common := by decide
  have hlegacy : .SYS_socket ∉ legacy := by decide
  rw [Libc.allowed, List.mem_append, not_or]
  refine ⟨hcommon, ?_⟩
  split_ifs
  · exact hlegacy
  · exact List.not_mem_nil

/-- The rules of the profile, by the calls that they name. -/
theorem exists_rule_iff : (∃ rule ∈ (maintainerScriptProfile libc).rules, rule.Allows d) ↔
    (∃ call ∈ libc.allowed, libc.IsCall call d) ∨ libc.IsCall .SYS_socket d ∧
      ((d.args 0).toNat % 2 ^ 32 = libc.afUnix.toNat % 2 ^ 32 ∨
        (d.args 0).toNat % 2 ^ 32 = libc.afNetlink.toNat % 2 ^ 32) := by
  constructor
  · rintro ⟨rule, hrule, hallows⟩
    obtain hplain | hguarded := List.mem_append.1 hrule
    · obtain ⟨call, hcall, rfl⟩ := List.mem_map.1 hplain
      exact .inl ⟨call, hcall, hallows⟩
    · obtain rfl | rfl := List.mem_pair.1 hguarded
      · exact .inr ⟨hallows.1, .inl hallows.2.2⟩
      · exact .inr ⟨hallows.1, .inr hallows.2.2⟩
  · rintro (⟨call, hcall, hd⟩ | ⟨hd, hunix | hnetlink⟩)
    · exact ⟨_, List.mem_append_left _ (List.mem_map_of_mem hcall), hd⟩
    · exact ⟨_, List.mem_append_right _ (List.mem_pair.2 (.inl rfl)), hd, by decide, hunix⟩
    · exact ⟨_, List.mem_append_right _ (List.mem_pair.2 (.inr rfl)), hd, by decide, hnetlink⟩

/-- No rule is for a call that is not named. -/
theorem allows_named (h : ∃ rule ∈ (maintainerScriptProfile libc).rules, rule.Allows d) :
    ∃ call ∈ .SYS_socket :: libc.allowed, libc.IsCall call d := by
  obtain ⟨call, hcall, hd⟩ | ⟨hd, -⟩ := exists_rule_iff.1 h
  · exact ⟨call, List.mem_cons_of_mem _ hcall, hd⟩
  · exact ⟨_, List.mem_cons_self, hd⟩

/-- The calls to `socket` that some rule of the profile is for. -/
theorem allows_socket (hdistinct : libc.Distinct) (hd : libc.IsCall .SYS_socket d) :
    (∃ rule ∈ (maintainerScriptProfile libc).rules, rule.Allows d) ↔
      (d.args 0).toNat % 2 ^ 32 = libc.afUnix.toNat % 2 ^ 32 ∨
        (d.args 0).toNat % 2 ^ 32 = libc.afNetlink.toNat % 2 ^ 32 := by
  rw [exists_rule_iff]
  refine ⟨fun h => (h.resolve_left ?_).2, fun h => .inr ⟨hd, h⟩⟩
  rintro ⟨call, hcall, hd'⟩
  obtain rfl := hdistinct call (List.mem_cons_of_mem _ hcall) .SYS_socket List.mem_cons_self
    (hd'.trans hd.symm)
  exact socket_not_mem_allowed hcall

/-! ### The numbers of one architecture -/

/-- The numbers of Linux on x86-64. -/
def numberX86 : Syscall → BitVec 64
  | .SYS_read => 0 | .SYS_write => 1 | .SYS_readv => 19 | .SYS_writev => 20 | .SYS_pread64 => 17
  | .SYS_pwrite64 => 18 | .SYS_openat => 257 | .SYS_close => 3 | .SYS_close_range => 436
  | .SYS_lseek => 8 | .SYS_ftruncate => 77 | .SYS_truncate => 76 | .SYS_fstat => 5
  | .SYS_newfstatat => 262 | .SYS_statx => 332 | .SYS_faccessat => 269 | .SYS_faccessat2 => 439
  | .SYS_dup => 32 | .SYS_dup3 => 292 | .SYS_fcntl => 72 | .SYS_ioctl => 16 | .SYS_pipe2 => 293
  | .SYS_ppoll => 271 | .SYS_pselect6 => 270 | .SYS_getpid => 39 | .SYS_getppid => 110
  | .SYS_gettid => 186 | .SYS_getuid => 102 | .SYS_geteuid => 107 | .SYS_getgid => 104
  | .SYS_getegid => 108 | .SYS_getgroups => 115 | .SYS_getcwd => 79 | .SYS_chdir => 80
  | .SYS_fchdir => 81 | .SYS_mkdirat => 258 | .SYS_unlinkat => 263 | .SYS_renameat2 => 316
  | .SYS_symlinkat => 266 | .SYS_linkat => 265 | .SYS_readlinkat => 267 | .SYS_fchmod => 91
  | .SYS_fchmodat => 268 | .SYS_fchown => 93 | .SYS_fchownat => 260 | .SYS_umask => 95
  | .SYS_utimensat => 280 | .SYS_mknodat => 259 | .SYS_mount => 165 | .SYS_umount2 => 166
  | .SYS_clone => 56 | .SYS_clone3 => 435 | .SYS_execve => 59 | .SYS_execveat => 322
  | .SYS_wait4 => 61 | .SYS_waitid => 247 | .SYS_exit => 60 | .SYS_exit_group => 231
  | .SYS_kill => 62 | .SYS_tgkill => 234 | .SYS_tkill => 200 | .SYS_rt_sigaction => 13
  | .SYS_rt_sigprocmask => 14 | .SYS_rt_sigreturn => 15 | .SYS_sigaltstack => 131
  | .SYS_nanosleep => 35 | .SYS_clock_nanosleep => 230 | .SYS_clock_gettime => 228
  | .SYS_clock_getres => 229 | .SYS_gettimeofday => 96 | .SYS_getrlimit => 97
  | .SYS_setrlimit => 160 | .SYS_prlimit64 => 302 | .SYS_prctl => 157 | .SYS_personality => 135
  | .SYS_set_tid_address => 218 | .SYS_set_robust_list => 273 | .SYS_get_robust_list => 274
  | .SYS_futex => 202 | .SYS_mmap => 9 | .SYS_munmap => 11 | .SYS_mprotect => 10
  | .SYS_mremap => 25 | .SYS_madvise => 28 | .SYS_brk => 12 | .SYS_mlock => 149
  | .SYS_munlock => 150 | .SYS_getdents64 => 217 | .SYS_getcpu => 309 | .SYS_getrusage => 98
  | .SYS_restart_syscall => 219 | .SYS_rseq => 334 | .SYS_fadvise64 => 221 | .SYS_mincore => 27
  | .SYS_msync => 26 | .SYS_sched_yield => 24 | .SYS_sched_getaffinity => 204
  | .SYS_sched_setaffinity => 203 | .SYS_getpriority => 140 | .SYS_setpriority => 141
  | .SYS_capget => 125 | .SYS_capset => 126 | .SYS_getrandom => 318 | .SYS_memfd_create => 319
  | .SYS_eventfd2 => 290 | .SYS_epoll_create1 => 291 | .SYS_epoll_ctl => 233
  | .SYS_epoll_pwait => 281 | .SYS_timerfd_create => 283 | .SYS_timerfd_settime => 286
  | .SYS_timerfd_gettime => 287 | .SYS_signalfd4 => 289 | .SYS_socketpair => 53 | .SYS_bind => 49
  | .SYS_connect => 42 | .SYS_listen => 50 | .SYS_accept => 43 | .SYS_accept4 => 288
  | .SYS_getsockname => 51 | .SYS_getpeername => 52 | .SYS_sendto => 44 | .SYS_recvfrom => 45
  | .SYS_sendmsg => 46 | .SYS_recvmsg => 47 | .SYS_getsockopt => 55 | .SYS_setsockopt => 54
  | .SYS_shutdown => 48 | .SYS_open => 2 | .SYS_stat => 4 | .SYS_lstat => 6 | .SYS_access => 21
  | .SYS_chmod => 90 | .SYS_chown => 92 | .SYS_lchown => 94 | .SYS_link => 86 | .SYS_mkdir => 83
  | .SYS_mknod => 133 | .SYS_rename => 82 | .SYS_rmdir => 84 | .SYS_symlink => 88
  | .SYS_unlink => 87 | .SYS_utime => 132 | .SYS_utimes => 235 | .SYS_dup2 => 33 | .SYS_pipe => 22
  | .SYS_poll => 7 | .SYS_select => 23 | .SYS_getdents => 78 | .SYS_epoll_wait => 232
  | .SYS_fork => 57 | .SYS_vfork => 58 | .SYS_pause => 34 | .SYS_time => 201
  | .SYS_arch_prctl => 158 | .SYS_socket => 41

def libcX86 : Libc := ⟨true, numberX86, 1, 16, 1⟩

theorem distinct_libcX86 : libcX86.Distinct := by
  refine List.inj_on_of_nodup_map ?_
  decide +kernel

end DebToolkit.Scripts
